import Mathlib.Data.Finset.Basic
import Mathlib.Data.Finset.Dedup
import Mathlib.Data.Finset.Lattice.Lemmas

/-!
# Discovery of peers

A node connects to the addresses it is started with and to those they report.
The others know it by the address it subscribes with, while it recognises itself
by the address it listens on. Where the two differ, it connects to itself as soon
as a peer reports it.

## Implementation notes

A map of connections is the finite set of its addresses. Whether an attempt to
connect succeeds and how a node that is asked answers is given by the number of
attempts or requests before it. Attempts and insertions are recorded. An early
return keeps the entries made before it.
-/

namespace ToyBtc

namespace Discovery

/-- Connected peer nodes. -/
structure Peers where
  listenerAddr : String
  subscriptionAddr : String
  nodes : Finset String

def Peers.new (host : String) (port : UInt16) (subscriptionHost : Option String) : Peers :=
  let listenerAddr := host ++ ":" ++ toString port
  let subscriptionAddr :=
    match subscriptionHost with
    | some subscriptionHost => subscriptionHost ++ ":" ++ toString port
    | none => listenerAddr
  ⟨listenerAddr, subscriptionAddr, ∅⟩

/-- A node is known by the address it listens on unless it subscribes with another host. -/
theorem Peers.new_subscriptionAddr_eq_iff (host : String) (port : UInt16)
    (subscriptionHost : Option String) :
    (new host port subscriptionHost).subscriptionAddr =
      (new host port subscriptionHost).listenerAddr ↔ subscriptionHost.getD host = host := by
  cases subscriptionHost with
  | none => simp [new]
  | some subscriptionHost =>
      change subscriptionHost ++ ":" ++ _ = host ++ ":" ++ _ ↔ subscriptionHost = host
      rw [String.append_left_inj, String.append_left_inj]

/-- How a node answers the request for its nodes. -/
inductive Answer
  | nodeList
  | unexpected
  | failed

structure Outcomes where
  connects : Nat → Bool
  answers : Nat → Answer

structure Outcomes.AllSucceed (o : Outcomes) : Prop where
  connects : ∀ i, o.connects i = true
  answers : ∀ i, o.answers i = .nodeList

/-- The connections of a call that is under way, and what it has done. -/
structure Progress where
  nodes : Finset String
  attempts : List String
  asked : Nat
  inserted : List String

namespace Progress

def attempt (s : Progress) (address : String) : Progress :=
  { s with attempts := s.attempts ++ [address] }

def ask (s : Progress) : Progress := { s with asked := s.asked + 1 }

def insert (s : Progress) (address : String) : Progress :=
  { s with nodes := Insert.insert address s.nodes, inserted := s.inserted ++ [address] }

/-- A node does not add the address it listens on. -/
def insertOther (s : Progress) (listenerAddr address : String) : Progress :=
  if address ≠ listenerAddr then s.insert address else s

end Progress

/-- The state in which a call has left the peers. -/
def left : Except Progress Progress → Progress
  | .ok s => s
  | .error s => s

/-- Connects to the nodes that a node has reported. Where one cannot be reached, the call
ends, or skips it. -/
def connectChildren (skips : Bool) (listenerAddr : String) (o : Outcomes) :
    List String → Progress → Except Progress Progress
  | [], s => .ok s
  | childNode :: rest, s =>
      if childNode ≠ listenerAddr ∧ childNode ∉ s.nodes then
        if o.connects s.attempts.length then
          connectChildren skips listenerAddr o rest ((s.attempt childNode).insert childNode)
        else if skips then connectChildren skips listenerAddr o rest (s.attempt childNode)
        else .error (s.attempt childNode)
      else connectChildren skips listenerAddr o rest s

/-- Connects to the nodes, each with the list it reports, over TCP. -/
def populateTcp (listenerAddr : String) (o : Outcomes) :
    List (String × List String) → Progress → Except Progress Progress
  | [], s => .ok s
  | (node, childNodes) :: rest, s =>
      if node ∈ s.nodes then populateTcp listenerAddr o rest s
      else if o.connects s.attempts.length then
        match o.answers s.asked with
        | .failed => .error (s.attempt node).ask
        -- the connection is dropped
        | .unexpected => populateTcp listenerAddr o rest (s.attempt node).ask
        | .nodeList =>
            match connectChildren false listenerAddr o childNodes (s.attempt node).ask with
            | .error s => .error s
            | .ok s => populateTcp listenerAddr o rest (s.insertOther listenerAddr node)
      else .error (s.attempt node)

/-- Connects to the nodes, each with the list it reports, over gRPC. -/
def populateGrpc (listenerAddr : String) (o : Outcomes) :
    List (String × List String) → Progress → Except Progress Progress
  | [], s => .ok s
  | (node, childNodes) :: rest, s =>
      if o.connects s.attempts.length then
        match o.answers s.asked with
        | .failed | .unexpected => .error (s.attempt node).ask
        | .nodeList =>
            match connectChildren true listenerAddr o childNodes (s.attempt node).ask with
            | .error s => .error s
            | .ok s => populateGrpc listenerAddr o rest (s.insertOther listenerAddr node)
      else .error (s.attempt node)

inductive FrontEnd
  | tcp
  | grpc
  deriving DecidableEq

def populate : FrontEnd → String → Outcomes → List (String × List String) → Progress →
    Except Progress Progress
  | .tcp => populateTcp
  | .grpc => populateGrpc

def Peers.start (peers : Peers) : Progress := ⟨peers.nodes, [], 0, []⟩

def Peers.populateConnections (peers : Peers) (frontEnd : FrontEnd) (o : Outcomes)
    (nodes : List (String × List String)) : Except Progress Progress :=
  populate frontEnd peers.listenerAddr o nodes peers.start

/-! ### What a call does, whatever the outcomes -/

/-- A later state of a call, in which only some addresses have been attempted since.
Nothing is removed, and what is new has been connected to. -/
structure Progress.Extends (may : String → Prop) (s s' : Progress) : Prop where
  nodes : s.nodes ⊆ s'.nodes
  attempts : s.attempts ⊆ s'.attempts
  asked : s.asked ≤ s'.asked
  may : ∀ x ∈ s'.attempts, x ∈ s.attempts ∨ may x
  connected : ∀ x ∈ s'.nodes, x ∈ s.nodes ∨ x ∈ s'.attempts
  inserted : ∀ x ∈ s'.inserted, x ∈ s.inserted ∨ x ∈ s'.attempts

namespace Progress.Extends

variable {may may' : String → Prop} {s t u : Progress} {address listenerAddr : String}

theorem refl (may : String → Prop) (s : Progress) : s.Extends may s where
  nodes := Finset.Subset.refl _
  attempts := List.Subset.refl _
  asked := le_rfl
  may _ hx := Or.inl hx
  connected _ hx := Or.inl hx
  inserted _ hx := Or.inl hx

theorem trans (h : s.Extends may t) (h' : t.Extends may u) : s.Extends may u where
  nodes := Finset.Subset.trans h.nodes h'.nodes
  attempts := List.Subset.trans h.attempts h'.attempts
  asked := h.asked.trans h'.asked
  may x hx := by
    rcases h'.may x hx with hx | hx
    · exact h.may x hx
    · exact Or.inr hx
  connected x hx := by
    rcases h'.connected x hx with hx | hx
    · exact (h.connected x hx).imp_right fun hx => h'.attempts hx
    · exact Or.inr hx
  inserted x hx := by
    rcases h'.inserted x hx with hx | hx
    · exact (h.inserted x hx).imp_right fun hx => h'.attempts hx
    · exact Or.inr hx

theorem mono (h : s.Extends may t) (hmay : ∀ x, may x → may' x) : s.Extends may' t :=
  { h with may := fun x hx => (h.may x hx).imp_right (hmay x) }

theorem attempt (s : Progress) (h : may address) : s.Extends may (s.attempt address) where
  nodes := Finset.Subset.refl _
  attempts := List.subset_append_left _ _
  asked := le_rfl
  may x hx := by
    rcases List.mem_append.mp hx with hx | hx
    · exact Or.inl hx
    · exact Or.inr (List.mem_singleton.mp hx ▸ h)
  connected _ hx := Or.inl hx
  inserted _ hx := Or.inl hx

theorem ask (may : String → Prop) (s : Progress) : s.Extends may s.ask where
  nodes := Finset.Subset.refl _
  attempts := List.Subset.refl _
  asked := Nat.le_succ _
  may _ hx := Or.inl hx
  connected _ hx := Or.inl hx
  inserted _ hx := Or.inl hx

theorem insert (may : String → Prop) (h : address ∈ s.attempts) :
    s.Extends may (s.insert address) where
  nodes := Finset.subset_insert _ _
  attempts := List.Subset.refl _
  asked := le_rfl
  may _ hx := Or.inl hx
  connected x hx := by
    rcases Finset.mem_insert.mp hx with rfl | hx
    · exact Or.inr h
    · exact Or.inl hx
  inserted x hx := by
    rcases List.mem_append.mp hx with hx | hx
    · exact Or.inl hx
    · exact Or.inr (List.mem_singleton.mp hx ▸ h)

theorem insertOther (may : String → Prop) (h : address ∈ s.attempts) :
    s.Extends may (s.insertOther listenerAddr address) := by
  unfold Progress.insertOther
  split
  · exact insert may h
  · exact refl may s

end Progress.Extends

theorem Progress.mem_attempts_attempt (s : Progress) (address : String) :
    address ∈ (s.attempt address).attempts :=
  List.mem_append_right _ (List.mem_singleton_self _)

/-- The reported addresses that may be connected to: those that are not known. -/
def MayChild (listenerAddr : String) (known : Finset String) (childNodes : List String)
    (x : String) : Prop :=
  x ≠ listenerAddr ∧ x ∉ known ∧ x ∈ childNodes

theorem MayChild.of_subset {listenerAddr : String} {known known' : Finset String}
    {childNodes childNodes' : List String} (hknown : known ⊆ known')
    (hchild : childNodes' ⊆ childNodes) {x : String}
    (h : MayChild listenerAddr known' childNodes' x) : MayChild listenerAddr known childNodes x :=
  ⟨h.1, fun hx => h.2.1 (hknown hx), hchild h.2.2⟩

theorem connectChildren_extends (skips : Bool) (listenerAddr : String) (o : Outcomes)
    (childNodes : List String) (s : Progress) :
    s.Extends (MayChild listenerAddr s.nodes childNodes)
      (left (connectChildren skips listenerAddr o childNodes s)) := by
  induction childNodes generalizing s with
  | nil => exact .refl _ s
  | cons childNode rest ih =>
      rw [connectChildren]
      split
      · next hnew =>
          have hattempt : s.Extends (MayChild listenerAddr s.nodes (childNode :: rest))
              (s.attempt childNode) :=
            .attempt s ⟨hnew.1, hnew.2, List.mem_cons_self⟩
          split
          · have hinsert := hattempt.trans
              (.insert _ (s.mem_attempts_attempt childNode))
            exact hinsert.trans ((ih _).mono fun x hx =>
              hx.of_subset hinsert.nodes (List.subset_cons_self _ _))
          · split
            · exact hattempt.trans ((ih _).mono fun x hx =>
                hx.of_subset hattempt.nodes (List.subset_cons_self _ _))
            · exact hattempt
      · exact (ih s).mono fun x hx =>
          hx.of_subset (Finset.Subset.refl _) (List.subset_cons_self _ _)

/-- The addresses that may be connected to over TCP: those that are not known, of nodes
that are not known and from their lists. -/
def MayTcp (listenerAddr : String) (known : Finset String) (nodes : List (String × List String))
    (x : String) : Prop :=
  x ∉ known ∧ ∃ p ∈ nodes, p.1 ∉ known ∧ (x = p.1 ∨ x ≠ listenerAddr ∧ x ∈ p.2)

/-- The addresses that may be connected to over gRPC: those of the nodes, and those from
their lists that are not known. -/
def MayGrpc (listenerAddr : String) (known : Finset String) (nodes : List (String × List String))
    (x : String) : Prop :=
  ∃ p ∈ nodes, x = p.1 ∨ MayChild listenerAddr known p.2 x

def May : FrontEnd → String → Finset String → List (String × List String) → String → Prop
  | .tcp => MayTcp
  | .grpc => MayGrpc

section OfSubset

variable {listenerAddr : String} {known known' : Finset String}
  {nodes : List (String × List String)} {p : String × List String} {x : String}

theorem MayTcp.of_subset (hknown : known ⊆ known') (h : MayTcp listenerAddr known' nodes x) :
    MayTcp listenerAddr known (p :: nodes) x := by
  obtain ⟨hx, q, hq, hqnew, h⟩ := h
  exact ⟨fun hmem => hx (hknown hmem), q, List.mem_cons_of_mem _ hq,
    fun hmem => hqnew (hknown hmem), h⟩

theorem MayGrpc.of_subset (hknown : known ⊆ known') (h : MayGrpc listenerAddr known' nodes x) :
    MayGrpc listenerAddr known (p :: nodes) x := by
  obtain ⟨q, hq, h⟩ := h
  exact ⟨q, List.mem_cons_of_mem _ hq,
    h.imp_right fun h => h.of_subset hknown (List.Subset.refl _)⟩

end OfSubset

/-- The visit of a node: what its children lead to, and the node itself. -/
theorem connectChildren_visit (skips : Bool) (listenerAddr : String) (o : Outcomes)
    (p : String × List String) (s : Progress) (may : String → Prop) (hnode : may p.1)
    (hchild : ∀ x, MayChild listenerAddr s.nodes p.2 x → may x) :
    let result := connectChildren skips listenerAddr o p.2 (s.attempt p.1).ask
    s.Extends may (left result) ∧ s.Extends may ((left result).insertOther listenerAddr p.1) ∧
      p.1 ∈ ((left result).insertOther listenerAddr p.1).attempts := by
  have hask : s.Extends may (s.attempt p.1).ask :=
    (Progress.Extends.attempt s hnode).trans (.ask may _)
  have hresult := hask.trans ((connectChildren_extends skips listenerAddr o p.2 _).mono hchild)
  have hmem :
      p.1 ∈ (left (connectChildren skips listenerAddr o p.2 (s.attempt p.1).ask)).attempts :=
    (connectChildren_extends skips listenerAddr o p.2 _).attempts (s.mem_attempts_attempt p.1)
  have hinsert : (left (connectChildren skips listenerAddr o p.2 (s.attempt p.1).ask)).Extends may
      ((left (connectChildren skips listenerAddr o p.2 (s.attempt p.1).ask)).insertOther
        listenerAddr p.1) := .insertOther may hmem
  exact ⟨hresult, hresult.trans hinsert, hinsert.attempts hmem⟩

theorem populateTcp_extends (listenerAddr : String) (o : Outcomes)
    (nodes : List (String × List String)) (s : Progress) :
    s.Extends (MayTcp listenerAddr s.nodes nodes) (left (populateTcp listenerAddr o nodes s)) := by
  induction nodes generalizing s with
  | nil => exact .refl _ s
  | cons p rest ih =>
      have hrest : ∀ {t : Progress}, s.Extends (MayTcp listenerAddr s.nodes (p :: rest)) t →
          s.Extends (MayTcp listenerAddr s.nodes (p :: rest))
            (left (populateTcp listenerAddr o rest t)) := fun ht =>
        ht.trans ((ih _).mono fun _ hx => hx.of_subset ht.nodes)
      rw [populateTcp]
      split
      · exact hrest (.refl _ s)
      · next hnew =>
          have hnode : MayTcp listenerAddr s.nodes (p :: rest) p.1 :=
            ⟨hnew, p, List.mem_cons_self, hnew, Or.inl rfl⟩
          have hchild : ∀ x, MayChild listenerAddr s.nodes p.2 x →
              MayTcp listenerAddr s.nodes (p :: rest) x := fun x hx =>
            ⟨hx.2.1, p, List.mem_cons_self, hnew, Or.inr ⟨hx.1, hx.2.2⟩⟩
          have hattempt := Progress.Extends.attempt s hnode
          split
          · have hask := hattempt.trans (.ask _ _)
            split
            · exact hask
            · exact hrest hask
            · have hvisit := connectChildren_visit false listenerAddr o p s _ hnode hchild
              split
              · next t ht => rw [ht] at hvisit; exact hvisit.1
              · next t ht => rw [ht] at hvisit; exact hrest hvisit.2.1
          · exact hattempt

theorem populateGrpc_extends (listenerAddr : String) (o : Outcomes)
    (nodes : List (String × List String)) (s : Progress) :
    s.Extends (MayGrpc listenerAddr s.nodes nodes)
      (left (populateGrpc listenerAddr o nodes s)) := by
  induction nodes generalizing s with
  | nil => exact .refl _ s
  | cons p rest ih =>
      have hnode : MayGrpc listenerAddr s.nodes (p :: rest) p.1 :=
        ⟨p, List.mem_cons_self, Or.inl rfl⟩
      have hchild : ∀ x, MayChild listenerAddr s.nodes p.2 x →
          MayGrpc listenerAddr s.nodes (p :: rest) x := fun x hx =>
        ⟨p, List.mem_cons_self, Or.inr hx⟩
      have hattempt := Progress.Extends.attempt s hnode
      rw [populateGrpc]
      split
      · split
        · exact hattempt.trans (.ask _ _)
        · exact hattempt.trans (.ask _ _)
        · have hvisit := connectChildren_visit true listenerAddr o p s _ hnode hchild
          split
          · next t ht => rw [ht] at hvisit; exact hvisit.1
          · next t ht =>
              rw [ht] at hvisit
              exact hvisit.2.1.trans ((ih _).mono fun _ hx => hx.of_subset hvisit.2.1.nodes)
      · exact hattempt

theorem populate_extends (frontEnd : FrontEnd) (listenerAddr : String) (o : Outcomes)
    (nodes : List (String × List String)) (s : Progress) :
    s.Extends (May frontEnd listenerAddr s.nodes nodes)
      (left (populate frontEnd listenerAddr o nodes s)) := by
  cases frontEnd with
  | tcp => exact populateTcp_extends listenerAddr o nodes s
  | grpc => exact populateGrpc_extends listenerAddr o nodes s

/-! ### Where every connection succeeds -/

section Connected

variable (listenerAddr : String) {o : Outcomes}

/-- Where every connection succeeds, all the children are connected but the own address. -/
theorem connectChildren_ok (skips : Bool) (ho : ∀ i, o.connects i = true)
    (childNodes : List String) (s : Progress) :
    ∃ t, connectChildren skips listenerAddr o childNodes s = .ok t ∧
      t.nodes = s.nodes ∪ childNodes.toFinset.erase listenerAddr := by
  induction childNodes generalizing s with
  | nil => exact ⟨s, rfl, by simp⟩
  | cons childNode rest ih =>
      rw [connectChildren]
      split
      · next hnew =>
          obtain ⟨t, ht, hnodes⟩ := ih ((s.attempt childNode).insert childNode)
          refine ⟨t, by rw [if_pos (ho _), ht], ?_⟩
          calc
            t.nodes = Insert.insert childNode s.nodes ∪ rest.toFinset.erase listenerAddr := hnodes
            _ = s.nodes ∪ Insert.insert childNode (rest.toFinset.erase listenerAddr) := by
              rw [Finset.insert_union, Finset.union_insert]
            _ = s.nodes ∪ (childNode :: rest).toFinset.erase listenerAddr := by
              rw [List.toFinset_cons, Finset.erase_insert_of_ne hnew.1]
      · next hold =>
          obtain ⟨t, ht, hnodes⟩ := ih s
          refine ⟨t, ht, ?_⟩
          rw [hnodes, List.toFinset_cons]
          ext x
          grind

theorem connectChildren_visit_ok (skips : Bool) (ho : ∀ i, o.connects i = true)
    (p : String × List String) (s : Progress) :
    ∃ t, connectChildren skips listenerAddr o p.2 (s.attempt p.1).ask = .ok t ∧
      s.Extends (fun _ => True) (t.insertOther listenerAddr p.1) ∧
      p.1 ∈ (t.insertOther listenerAddr p.1).attempts ∧
      (t.insertOther listenerAddr p.1).nodes =
        s.nodes ∪ (Insert.insert p.1 p.2.toFinset).erase listenerAddr := by
  obtain ⟨t, ht, hnodes⟩ := connectChildren_ok listenerAddr skips ho p.2 (s.attempt p.1).ask
  have hvisit := connectChildren_visit skips listenerAddr o p s (fun _ => True) trivial
    fun _ _ => trivial
  rw [ht] at hvisit
  refine ⟨t, ht, hvisit.2.1, hvisit.2.2, ?_⟩
  change t.nodes = s.nodes ∪ _ at hnodes
  rw [Progress.insertOther]
  split
  · next hne =>
      rw [Finset.erase_insert_of_ne hne, Finset.union_insert, ← hnodes]
      rfl
  · next heq =>
      rw [not_not.mp heq, Finset.erase_insert_eq_erase, hnodes]

/-- The addresses of the nodes. -/
def addresses (nodes : List (String × List String)) : Finset String :=
  (nodes.map Prod.fst).toFinset

/-- The addresses in the lists that the nodes report. -/
def reported (nodes : List (String × List String)) : Finset String :=
  (nodes.flatMap Prod.snd).toFinset

theorem addresses_cons (p : String × List String) (rest : List (String × List String)) :
    addresses (p :: rest) = Insert.insert p.1 (addresses rest) := by
  simp [addresses]

theorem reported_cons (p : String × List String) (rest : List (String × List String)) :
    reported (p :: rest) = p.2.toFinset ∪ reported rest := by
  simp [reported]

theorem mem_addresses {nodes : List (String × List String)} {x : String} :
    x ∈ addresses nodes ↔ ∃ p ∈ nodes, p.1 = x := by
  simp [addresses]

theorem mem_reported {nodes : List (String × List String)} {x : String} :
    x ∈ reported nodes ↔ ∃ p ∈ nodes, x ∈ p.2 := by
  simp [reported]

/-- The addresses that are reported over TCP: a node that is connected already, also as
the child of one before it, is not asked. -/
def heard (listenerAddr : String) : Finset String → List (String × List String) → Finset String
  | _, [] => ∅
  | known, (node, childNodes) :: rest =>
      if node ∈ known then heard listenerAddr known rest
      else childNodes.toFinset ∪ heard listenerAddr
        (known ∪ (Insert.insert node childNodes.toFinset).erase listenerAddr) rest

theorem populateTcp_ok (ho : o.AllSucceed) (nodes : List (String × List String)) (s : Progress) :
    ∃ t, populateTcp listenerAddr o nodes s = .ok t ∧
      t.nodes = s.nodes ∪ (addresses nodes ∪ heard listenerAddr s.nodes nodes).erase
        listenerAddr := by
  induction nodes generalizing s with
  | nil => exact ⟨s, rfl, by simp [addresses, heard]⟩
  | cons p rest ih =>
      rw [populateTcp, heard, addresses_cons]
      split
      · next hold =>
          obtain ⟨t, ht, hnodes⟩ := ih s
          refine ⟨t, ht, ?_⟩
          rw [hnodes]
          ext x
          grind
      · obtain ⟨c, hc, -, -, hvisit⟩ := connectChildren_visit_ok listenerAddr false ho.connects p s
        obtain ⟨t, ht, hnodes⟩ := ih (c.insertOther listenerAddr p.1)
        rw [if_pos (ho.connects _), ho.answers, hc]
        refine ⟨t, ht, ?_⟩
        rw [hnodes, hvisit]
        ext x
        grind

theorem populateGrpc_ok (ho : o.AllSucceed) (nodes : List (String × List String)) (s : Progress) :
    ∃ t, populateGrpc listenerAddr o nodes s = .ok t ∧
      t.nodes = s.nodes ∪ (addresses nodes ∪ reported nodes).erase listenerAddr := by
  induction nodes generalizing s with
  | nil => exact ⟨s, rfl, by simp [addresses, reported]⟩
  | cons p rest ih =>
      obtain ⟨c, hc, -, -, hvisit⟩ := connectChildren_visit_ok listenerAddr true ho.connects p s
      obtain ⟨t, ht, hnodes⟩ := ih (c.insertOther listenerAddr p.1)
      rw [populateGrpc, if_pos (ho.connects _), ho.answers, hc]
      refine ⟨t, ht, ?_⟩
      rw [hnodes, hvisit, addresses_cons, reported_cons]
      ext x
      grind

end Connected

/-! ### Which addresses a call can attempt -/

theorem mem_attempts_of_mem_addresses {listenerAddr : String} {o : Outcomes} (ho : o.AllSucceed)
    {nodes : List (String × List String)} {s : Progress} {p : String × List String}
    (hp : p ∈ nodes) : p.1 ∈ (left (populateGrpc listenerAddr o nodes s)).attempts := by
  induction nodes generalizing s with
  | nil => cases hp
  | cons q rest ih =>
      obtain ⟨c, hc, -, hq, -⟩ := connectChildren_visit_ok listenerAddr true ho.connects q s
      rw [populateGrpc, if_pos (ho.connects _), ho.answers, hc]
      rcases List.mem_cons.mp hp with rfl | hp
      · exact (populateGrpc_extends listenerAddr o rest _).attempts hq
      · exact ih hp

/-- Every address that may be connected to over gRPC is, where all succeeds. -/
theorem mem_attempts_populateGrpc {listenerAddr : String} {o : Outcomes} (ho : o.AllSucceed)
    {nodes : List (String × List String)} {s : Progress} {x : String}
    (h : MayGrpc listenerAddr s.nodes nodes x) :
    x ∈ (left (populateGrpc listenerAddr o nodes s)).attempts := by
  obtain ⟨p, hp, rfl | ⟨hne, hnew, hx⟩⟩ := h
  · exact mem_attempts_of_mem_addresses ho hp
  · obtain ⟨t, ht, hnodes⟩ := populateGrpc_ok listenerAddr ho nodes s
    have hmem : x ∈ t.nodes := by
      rw [hnodes]
      refine Finset.mem_union_right _ (Finset.mem_erase.mpr ⟨hne, Finset.mem_union_right _ ?_⟩)
      exact mem_reported.mpr ⟨p, hp, hx⟩
    have hextends := populateGrpc_extends listenerAddr o nodes s
    rw [ht] at hextends ⊢
    exact (hextends.connected x hmem).resolve_left hnew

/-- Only the answer to the request with this number is a list. -/
def onlyAnswer (k : Nat) : Outcomes where
  connects _ := true
  answers i := if i = k then .nodeList else .unexpected

theorem onlyAnswer_connects (k i : Nat) : (onlyAnswer k).connects i = true := rfl

theorem onlyAnswer_self (k : Nat) : (onlyAnswer k).answers k = .nodeList := if_pos rfl

theorem onlyAnswer_of_ne {k i : Nat} (h : i ≠ k) : (onlyAnswer k).answers i = .unexpected :=
  if_neg h

/-- Every address that may be connected to over TCP is, where the nodes before the one it
belongs to answer otherwise. -/
theorem exists_mem_attempts_populateTcp {listenerAddr : String}
    {nodes : List (String × List String)} {s : Progress} {x : String}
    (h : MayTcp listenerAddr s.nodes nodes x) :
    ∃ k ≥ s.asked, x ∈ (left (populateTcp listenerAddr (onlyAnswer k) nodes s)).attempts := by
  obtain ⟨hnew, p, hp, hpnew, hx⟩ := h
  induction nodes generalizing s with
  | nil => cases hp
  | cons q rest ih =>
      by_cases hq : q.1 ∈ s.nodes
      · have hrest : p ∈ rest :=
          (List.mem_cons.mp hp).resolve_left fun heq => hpnew (heq ▸ hq)
        obtain ⟨k, hk, hmem⟩ := ih hnew hrest hpnew
        exact ⟨k, hk, by rwa [populateTcp, if_pos hq]⟩
      · rcases List.mem_cons.mp hp with rfl | hp
        · refine ⟨s.asked, le_rfl, ?_⟩
          obtain ⟨c, hc, hextends, hnode, hnodes⟩ :=
            connectChildren_visit_ok listenerAddr false (onlyAnswer_connects s.asked) p s
          rw [populateTcp, if_neg hq, if_pos (onlyAnswer_connects _ _), onlyAnswer_self, hc]
          apply (populateTcp_extends listenerAddr _ rest _).attempts
          rcases hx with rfl | ⟨hne, hx⟩
          · exact hnode
          · refine (hextends.connected x ?_).resolve_left hnew
            rw [hnodes]
            refine Finset.mem_union_right _ (Finset.mem_erase.mpr ⟨hne, ?_⟩)
            exact Finset.mem_insert_of_mem (List.mem_toFinset.mpr hx)
        · have hasked : x ∉ (s.attempt q.1).ask.nodes := hnew
          obtain ⟨k, hk, hmem⟩ := ih hasked hp hpnew
          have hne : s.asked ≠ k := Nat.ne_of_lt hk
          refine ⟨k, Nat.le_of_succ_le hk, ?_⟩
          rw [populateTcp, if_neg hq, if_pos (onlyAnswer_connects _ _), onlyAnswer_of_ne hne]
          exact hmem

/-! ### The own address -/

def allSucceed : Outcomes where
  connects _ := true
  answers _ := .nodeList

theorem allSucceed_allSucceed : allSucceed.AllSucceed := ⟨fun _ => rfl, fun _ => rfl⟩

theorem exists_mem_attempts_populate {frontEnd : FrontEnd} {listenerAddr : String}
    {nodes : List (String × List String)} {s : Progress} {x : String}
    (h : May frontEnd listenerAddr s.nodes nodes x) :
    ∃ o, x ∈ (left (populate frontEnd listenerAddr o nodes s)).attempts := by
  cases frontEnd with
  | tcp =>
      obtain ⟨k, -, hmem⟩ := exists_mem_attempts_populateTcp h
      exact ⟨onlyAnswer k, hmem⟩
  | grpc => exact ⟨allSucceed, mem_attempts_populateGrpc allSucceed_allSucceed h⟩

/-- What is connected where all succeeds, but for the address that the node listens on. -/
def reached (listenerAddr : String) (known : Finset String) (nodes : List (String × List String)) :
    FrontEnd → Finset String
  | .tcp => addresses nodes ∪ heard listenerAddr known nodes
  | .grpc => addresses nodes ∪ reported nodes

theorem populate_ok (frontEnd : FrontEnd) (listenerAddr : String) {o : Outcomes}
    (ho : o.AllSucceed) (nodes : List (String × List String)) (s : Progress) :
    ∃ t, populate frontEnd listenerAddr o nodes s = .ok t ∧
      t.nodes = s.nodes ∪ (reached listenerAddr s.nodes nodes frontEnd).erase listenerAddr := by
  cases frontEnd with
  | tcp => exact populateTcp_ok listenerAddr ho nodes s
  | grpc => exact populateGrpc_ok listenerAddr ho nodes s

/-- What is heard is in the list of a node that was not known. -/
theorem mem_heard {listenerAddr : String} {known : Finset String}
    {nodes : List (String × List String)} {x : String} (hx : x ∈ heard listenerAddr known nodes) :
    ∃ p ∈ nodes, p.1 ∉ known ∧ x ∈ p.2 := by
  induction nodes generalizing known with
  | nil => exact absurd hx (Finset.notMem_empty x)
  | cons p rest ih =>
      rw [heard] at hx
      split at hx
      · obtain ⟨q, hq, hnew, hx⟩ := ih hx
        exact ⟨q, List.mem_cons_of_mem _ hq, hnew, hx⟩
      · next hnew =>
          rcases Finset.mem_union.mp hx with hx | hx
          · exact ⟨p, List.mem_cons_self, hnew, List.mem_toFinset.mp hx⟩
          · obtain ⟨q, hq, hqnew, hx⟩ := ih hx
            refine ⟨q, List.mem_cons_of_mem _ hq, fun hmem => hqnew ?_, hx⟩
            exact Finset.mem_union_left _ hmem

theorem not_mayTcp_iff {listenerAddr : String} {known : Finset String}
    {nodes : List (String × List String)} {x : String} :
    ¬ MayTcp listenerAddr known nodes x ↔ x ∈ known ∨ ∀ p ∈ nodes, p.1 ∉ known →
      p.1 ≠ x ∧ (x = listenerAddr ∨ x ∉ p.2) := by
  constructor
  · intro h
    by_cases hx : x ∈ known
    · exact Or.inl hx
    · refine Or.inr fun p hp hnew => ⟨fun heq => ?_, ?_⟩
      · exact h ⟨hx, p, hp, hnew, Or.inl heq.symm⟩
      · by_contra hlisted
        rw [not_or, not_not] at hlisted
        exact h ⟨hx, p, hp, hnew, Or.inr hlisted⟩
  · rintro h ⟨hx, p, hp, hnew, hreached⟩
    obtain ⟨hne, hlisted⟩ := h.resolve_left hx p hp hnew
    rcases hreached with rfl | ⟨hother, hmem⟩
    · exact hne rfl
    · exact hlisted.elim hother fun hnot => hnot hmem

theorem not_mayGrpc_iff {listenerAddr : String} {known : Finset String}
    {nodes : List (String × List String)} {x : String} :
    ¬ MayGrpc listenerAddr known nodes x ↔
      x ∉ addresses nodes ∧ (x = listenerAddr ∨ x ∈ known ∨ x ∉ reported nodes) := by
  rw [mem_addresses, mem_reported]
  constructor
  · intro h
    refine ⟨fun ⟨p, hp, heq⟩ => h ⟨p, hp, Or.inl heq.symm⟩, ?_⟩
    by_contra hmay
    simp only [not_or, not_not] at hmay
    obtain ⟨hne, hnew, p, hp, hx⟩ := hmay
    exact h ⟨p, hp, Or.inr ⟨hne, hnew, hx⟩⟩
  · rintro ⟨hlisted, hmay⟩ ⟨p, hp, rfl | ⟨hne, hnew, hx⟩⟩
    · exact hlisted ⟨p, hp, rfl⟩
    · exact (hmay.resolve_left hne).elim hnew fun hnot => hnot ⟨p, hp, hx⟩

namespace Peers

/-- The node never connects to the address it advertises nor inserts it, and where all
succeeds, it is connected to all the other addresses it is given or told. -/
structure NeverItsOwn (peers : Peers) (frontEnd : FrontEnd) (nodes : List (String × List String)) :
    Prop where
  attempts : ∀ o,
    peers.subscriptionAddr ∉ (left (peers.populateConnections frontEnd o nodes)).attempts
  inserted : ∀ o,
    peers.subscriptionAddr ∉ (left (peers.populateConnections frontEnd o nodes)).inserted
  complete : ∀ o, o.AllSucceed → ∃ s, peers.populateConnections frontEnd o nodes = .ok s ∧
    s.nodes = peers.nodes ∪ (addresses nodes ∪ reported nodes).erase peers.subscriptionAddr

theorem neverItsOwn_iff (peers : Peers) (frontEnd : FrontEnd)
    (nodes : List (String × List String)) :
    peers.NeverItsOwn frontEnd nodes ↔
      ¬ May frontEnd peers.listenerAddr peers.start.nodes nodes peers.subscriptionAddr ∧
        peers.nodes ∪ (reached peers.listenerAddr peers.nodes nodes frontEnd).erase
            peers.listenerAddr =
          peers.nodes ∪ (addresses nodes ∪ reported nodes).erase peers.subscriptionAddr := by
  constructor
  · intro h
    refine ⟨fun hmay => ?_, ?_⟩
    · obtain ⟨o, hmem⟩ := exists_mem_attempts_populate hmay
      exact h.attempts o hmem
    · obtain ⟨s, hs, hnodes⟩ := h.complete allSucceed allSucceed_allSucceed
      obtain ⟨t, ht, hreached⟩ :=
        populate_ok frontEnd peers.listenerAddr allSucceed_allSucceed nodes peers.start
      obtain rfl : s = t := Except.ok.inj (hs.symm.trans ht)
      exact hreached.symm.trans hnodes
  · rintro ⟨hmay, heq⟩
    have hattempts : ∀ o,
        peers.subscriptionAddr ∉ (left (peers.populateConnections frontEnd o nodes)).attempts := by
      intro o hmem
      have hextends := populate_extends frontEnd peers.listenerAddr o nodes peers.start
      exact (hextends.may _ hmem).elim (List.not_mem_nil) hmay
    refine ⟨hattempts, fun o hmem => ?_, fun o ho => ?_⟩
    · have hextends := populate_extends frontEnd peers.listenerAddr o nodes peers.start
      exact (hextends.inserted _ hmem).elim (List.not_mem_nil) (hattempts o)
    · obtain ⟨t, ht, hreached⟩ := populate_ok frontEnd peers.listenerAddr ho nodes
        peers.start
      exact ⟨t, ht, hreached.trans heq⟩

/-- The own address is out of reach over TCP, and nothing is lost: the address the node
listens on is its own or of no use to others, and the lists of the nodes that are not
asked hold no other address. -/
structure TcpKeepsOut (peers : Peers) (nodes : List (String × List String)) : Prop where
  own : peers.subscriptionAddr ∈ peers.nodes ∨ ∀ p ∈ nodes, p.1 ∉ peers.nodes →
    p.1 ≠ peers.subscriptionAddr ∧
      (peers.subscriptionAddr = peers.listenerAddr ∨ peers.subscriptionAddr ∉ p.2)
  listener : peers.subscriptionAddr = peers.listenerAddr ∨ peers.listenerAddr ∈ peers.nodes ∨
    peers.listenerAddr ∉ addresses nodes ∪ reported nodes
  heard : ∀ x ∈ reported nodes, x ≠ peers.subscriptionAddr →
    x ∈ peers.nodes ∨ x ∈ addresses nodes ∨ x ∈ heard peers.listenerAddr peers.nodes nodes

/-- The own address is out of reach over gRPC. -/
structure GrpcKeepsOut (peers : Peers) (nodes : List (String × List String)) : Prop where
  unlisted : peers.subscriptionAddr ∉ addresses nodes
  own : peers.subscriptionAddr = peers.listenerAddr ∨ peers.subscriptionAddr ∈ peers.nodes ∨
    peers.subscriptionAddr ∉ reported nodes
  listener : peers.subscriptionAddr = peers.listenerAddr ∨ peers.listenerAddr ∈ peers.nodes ∨
    peers.listenerAddr ∉ addresses nodes ∪ reported nodes

def KeepsOut (peers : Peers) (nodes : List (String × List String)) : FrontEnd → Prop
  | .tcp => peers.TcpKeepsOut nodes
  | .grpc => peers.GrpcKeepsOut nodes

/-- Two additions to a set give the same where they differ only in it. -/
theorem union_erase_eq_iff {known a b : Finset String} {x y : String} (hab : a ⊆ b) :
    known ∪ a.erase x = known ∪ b.erase y ↔
      (y = x ∨ y ∈ known ∨ y ∉ a) ∧ (y = x ∨ x ∈ known ∨ x ∉ b) ∧
        ∀ z ∈ b, z ≠ y → z ∈ known ∨ z ∈ a := by
  constructor
  · intro h
    refine ⟨?_, ?_, fun z hz hne => ?_⟩
    · by_contra! hy
      have hmem : y ∈ known ∪ a.erase x :=
        Finset.mem_union_right _ (Finset.mem_erase.mpr ⟨hy.1, hy.2.2⟩)
      rw [h] at hmem
      grind
    · by_contra! hx
      have hmem : x ∈ known ∪ b.erase y :=
        Finset.mem_union_right _ (Finset.mem_erase.mpr ⟨hx.1.symm, hx.2.2⟩)
      rw [← h] at hmem
      grind
    · have hmem : z ∈ known ∪ b.erase y :=
        Finset.mem_union_right _ (Finset.mem_erase.mpr ⟨hne, hz⟩)
      rw [← h] at hmem
      exact (Finset.mem_union.mp hmem).imp_right Finset.mem_of_mem_erase
  · rintro ⟨hy, hx, hb⟩
    apply Finset.Subset.antisymm
    · intro z hz
      grind
    · intro z hz
      grind

theorem neverItsOwn_iff_keepsOut (peers : Peers) (frontEnd : FrontEnd)
    (nodes : List (String × List String)) :
    peers.NeverItsOwn frontEnd nodes ↔ peers.KeepsOut nodes frontEnd := by
  rw [neverItsOwn_iff]
  cases frontEnd with
  | tcp =>
      have hheard : addresses nodes ∪ heard peers.listenerAddr peers.nodes nodes ⊆
          addresses nodes ∪ reported nodes := by
        refine Finset.union_subset_union_right fun x hx => ?_
        obtain ⟨p, hp, -, hx⟩ := mem_heard hx
        exact mem_reported.mpr ⟨p, hp, hx⟩
      rw [reached, union_erase_eq_iff hheard]
      change ¬ MayTcp _ peers.nodes _ _ ∧ _ ↔ _
      rw [not_mayTcp_iff]
      constructor
      · rintro ⟨hown, -, hlistener, hlost⟩
        refine ⟨hown, hlistener, fun x hx hne => ?_⟩
        simpa using hlost x (Finset.mem_union_right _ hx) hne
      · intro h
        refine ⟨h.own, ?_, h.listener, fun x hx hne => ?_⟩
        · -- the own address is heard only from nodes that were not known
          rcases h.own with hown | hown
          · exact Or.inr (Or.inl hown)
          · by_contra hmem
            simp only [not_or, not_not] at hmem
            rcases Finset.mem_union.mp hmem.2.2 with haddress | hheard
            · obtain ⟨p, hp, heq⟩ := mem_addresses.mp haddress
              exact (hown p hp (heq ▸ hmem.2.1)).1 heq
            · obtain ⟨p, hp, hnew, hx⟩ := mem_heard hheard
              exact (hown p hp hnew).2.elim hmem.1 fun hnot => hnot hx
        · rcases Finset.mem_union.mp hx with hx | hx
          · exact Or.inr (Finset.mem_union_left _ hx)
          · simpa using h.heard x hx hne
  | grpc =>
      rw [reached, union_erase_eq_iff (Finset.Subset.refl _)]
      change ¬ MayGrpc _ peers.nodes _ _ ∧ _ ↔ _
      rw [not_mayGrpc_iff]
      constructor
      · rintro ⟨⟨hunlisted, hown⟩, -, hlistener, -⟩
        exact ⟨hunlisted, hown, hlistener⟩
      · intro h
        refine ⟨⟨h.unlisted, h.own⟩, ?_, h.listener, fun x hx _ => Or.inr hx⟩
        rcases h.own with heq | hknown | hnot
        · exact Or.inl heq
        · exact Or.inr (Or.inl hknown)
        · exact Or.inr (Or.inr (Finset.notMem_union.mpr ⟨h.unlisted, hnot⟩))

/-- Whatever the host, the port and the host of the subscriptions, a node never becomes its
own peer exactly where its own address is kept out. -/
theorem populateConnections_neverItsOwn_iff (frontEnd : FrontEnd) (host : String) (port : UInt16)
    (subscriptionHost : Option String) (known : Finset String)
    (nodes : List (String × List String)) :
    let peers := { Peers.new host port subscriptionHost with nodes := known }
    peers.NeverItsOwn frontEnd nodes ↔ peers.KeepsOut nodes frontEnd :=
  neverItsOwn_iff_keepsOut _ frontEnd nodes

/-- A restarted node connects to itself when it is told its own address. -/
theorem populateConnections_restarted :
    let peers := Peers.new "0.0.0.0" 50000 (some "node-2")
    ¬ peers.NeverItsOwn .tcp [("node-1:50000", ["node-2:50000"])] ∧
      ¬ peers.NeverItsOwn .grpc [("node-1:50000", ["node-2:50000"])] := by
  intro peers
  have htcp : peers.subscriptionAddr ∈ (left (peers.populateConnections .tcp allSucceed
      [("node-1:50000", ["node-2:50000"])])).attempts := by decide +kernel
  have hgrpc : peers.subscriptionAddr ∈ (left (peers.populateConnections .grpc allSucceed
      [("node-1:50000", ["node-2:50000"])])).attempts := by decide +kernel
  exact ⟨fun h => h.attempts allSucceed htcp, fun h => h.attempts allSucceed hgrpc⟩

end Peers

end Discovery

end ToyBtc
