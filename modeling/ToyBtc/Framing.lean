import Mathlib.Data.List.Basic
import Mathlib.Data.List.Infix

/-!
# Length-prefixed frames

A frame is a body behind a header of fixed width that tells its length. A
reader of such frames takes exactly one frame off the front of a stream, and
reports the end of the stream on every frame that is cut short. Both properties
carry over from one frame to any sequence of frames, and to readers that take
turns.
-/

namespace Framing

universe u v w

variable {α : Type u} {β : Type v} {ε : Type w}

/-- The first `n` symbols of a stream and the rest of it, if it has that many. -/
def takeExact (n : Nat) (stream : List α) : Option (List α × List α) :=
  if n ≤ stream.length then some (stream.take n, stream.drop n) else none

theorem takeExact_append (l rest : List α) :
    takeExact l.length (l ++ rest) = some (l, rest) := by
  rw [takeExact, if_pos (by simp), List.take_left, List.drop_left]

theorem takeExact_eq_none {n : Nat} {stream : List α} (h : stream.length < n) :
    takeExact n stream = none :=
  if_neg (Nat.not_le.mpr h)

/-- Headers of one width that tell every length up to a limit. -/
structure Header (α : Type u) where
  width : Nat
  limit : Nat
  write : Nat → List α
  read : List α → Nat
  length_write : ∀ n, (write n).length = width
  read_write : ∀ n ≤ limit, read (write n) = n

/-- The body behind the header for its length. -/
def frame (header : Header α) (body : List α) : List α := header.write body.length ++ body

/-- A frame is cut short in its header or in its body. -/
theorem cut_cases {header : Header α} {body p : List α} (hp : p <+: frame header body)
    (hne : p ≠ frame header body) :
    p.length < header.width ∨
      ∃ q, p = header.write body.length ++ q ∧ q.length < body.length := by
  rcases Nat.lt_or_ge p.length header.width with hlt | hge
  · exact Or.inl hlt
  · right
    rw [← header.length_write body.length] at hge
    obtain ⟨q, rfl⟩ := List.prefix_of_prefix_length_le (List.prefix_append _ body) hp hge
    have hq : q <+: body := (List.prefix_append_right_inj _).mp hp
    refine ⟨q, rfl, Nat.lt_of_le_of_ne hq.length_le fun hlen => hne ?_⟩
    rw [frame, hq.eq_of_length hlen]

/-- The reader takes what is written for `x` off a stream, and reports `eof` where
that is cut short. -/
structure Takes (read : List α → Except ε (β × List α)) (write : β → List α) (eof : ε)
    (x : β) : Prop where
  whole : ∀ rest, read (write x ++ rest) = .ok (x, rest)
  cut : ∀ p, p <+: write x → p ≠ write x → read p = .error eof

/-- Reads one element with each reader in turn, up to the first error. -/
def readAll : List (List α → Except ε (β × List α)) → List α → List β × Except ε (List α)
  | [], stream => ([], .ok stream)
  | read :: readers, stream =>
      match read stream with
      | .error e => ([], .error e)
      | .ok (x, rest) => (x :: (readAll readers rest).1, (readAll readers rest).2)

theorem readAll_whole {read : List α → Except ε (β × List α)} {write : β → List α} {eof : ε}
    {x : β} (h : Takes read write eof x) (readers : List (List α → Except ε (β × List α)))
    (rest : List α) :
    readAll (read :: readers) (write x ++ rest) =
      (x :: (readAll readers rest).1, (readAll readers rest).2) := by
  rw [readAll, h.whole]

/-- What is written in sequence is read in sequence, and nothing behind it is touched. -/
theorem readAll_written {write : β → List α} {eof : ε} {xs : List β}
    {readers : List (List α → Except ε (β × List α))}
    (h : ∀ read ∈ readers, ∀ x ∈ xs, Takes read write eof x)
    (hlen : readers.length = xs.length) (rest : List α) :
    readAll readers (xs.flatMap write ++ rest) = (xs, .ok rest) := by
  induction xs generalizing readers with
  | nil =>
      rw [List.length_eq_zero_iff.mp hlen]
      rfl
  | cons x xs ih =>
      obtain ⟨read, readers, rfl⟩ := List.exists_cons_of_length_eq_add_one hlen
      have htakes := h read List.mem_cons_self x List.mem_cons_self
      have htail := ih (fun r hr y hy => h r (List.mem_cons_of_mem _ hr) y
        (List.mem_cons_of_mem _ hy)) (Nat.succ_inj.mp hlen)
      rw [List.flatMap_cons, List.append_assoc, readAll_whole htakes, htail]

/-- A cut sequence holds some whole elements and the beginning of one more. -/
theorem exists_cut {write : β → List α} {xs : List β} {p : List α}
    (hp : p <+: xs.flatMap write) (hne : p ≠ xs.flatMap write) :
    ∃ before x after q, xs = before ++ x :: after ∧ p = before.flatMap write ++ q ∧
      q <+: write x ∧ q ≠ write x := by
  induction xs generalizing p with
  | nil => exact absurd (List.prefix_nil.mp hp) hne
  | cons x xs ih =>
      rw [List.flatMap_cons] at hp hne
      by_cases hwhole : write x <+: p
      · obtain ⟨q, rfl⟩ := hwhole
        obtain ⟨before, y, after, cut, rfl, rfl, hcut⟩ :=
          ih ((List.prefix_append_right_inj _).mp hp) fun h => hne (congrArg _ h)
        exact ⟨x :: before, y, after, cut, rfl, by rw [List.flatMap_cons, List.append_assoc], hcut⟩
      · refine ⟨[], x, xs, p, rfl, rfl, ?_, fun h => hwhole (h ▸ List.prefix_rfl)⟩
        exact (List.prefix_or_prefix_of_prefix hp (List.prefix_append _ _)).resolve_right hwhole

/-- From a sequence that was cut, the whole elements are read and then the end is reported. -/
theorem readAll_cut {write : β → List α} {eof : ε} {before : List β} {x : β} {q : List α}
    {readers : List (List α → Except ε (β × List α))}
    (h : ∀ read ∈ readers, ∀ y ∈ before ++ [x], Takes read write eof y)
    (hlen : before.length < readers.length) (hq : q <+: write x) (hne : q ≠ write x) :
    readAll readers (before.flatMap write ++ q) = (before, .error eof) := by
  induction before generalizing readers with
  | nil =>
      obtain ⟨read, readers, rfl⟩ := List.exists_cons_of_length_pos hlen
      have htakes := h read List.mem_cons_self x List.mem_cons_self
      rw [List.flatMap_nil, List.nil_append, readAll, htakes.cut q hq hne]
  | cons y before ih =>
      obtain ⟨read, readers, rfl⟩ := List.exists_cons_of_length_pos (Nat.zero_lt_of_lt hlen)
      have htakes := h read List.mem_cons_self y List.mem_cons_self
      have htail := ih (fun r hr z hz => h r (List.mem_cons_of_mem _ hr) z
        (List.mem_cons_of_mem _ hz)) (Nat.lt_of_succ_lt_succ hlen)
      rw [List.flatMap_cons, List.append_assoc, readAll_whole htakes, htail]

end Framing
