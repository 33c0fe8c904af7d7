import Mathlib.Data.List.Basic
import Mathlib.Tactic.Common

/-!
# Delimited frames

Messages on a stream of `α`, each closed by a delimiter that occurs in none of them.

* `splitLine` — the first line of a buffer and what follows it, `completeLines` — all of its lines;
* `frame` — the stream of a list of messages, `arrived` — those of them whose delimiter is among its
  first `n` items;
* `frame_line`, `arrived_of_frame`, `completeLines_of_prefix` — what a reader finds that has got a
  prefix of the stream.
-/

namespace DistRes.Lib

variable {α M : Type*} [DecidableEq α]

/-- The items in front of the first delimiter, and those behind it. -/
def splitLine (d : α) : List α → Option (List α × List α)
  | [] => none
  | b :: bs => if b = d then some ([], bs) else (splitLine d bs).map fun r => (b :: r.1, r.2)

theorem splitLine_eq_some {d : α} {bs l r : List α} :
    splitLine d bs = some (l, r) ↔ bs = l ++ d :: r ∧ d ∉ l := by
  induction bs generalizing l with
  | nil => simp [splitLine]
  | cons b bs ih =>
    by_cases hb : b = d
    · simp only [splitLine, if_pos hb, Option.some.injEq, Prod.mk.injEq]
      constructor
      · rintro ⟨rfl, rfl⟩
        simp [hb]
      · rintro ⟨h1, h2⟩
        cases l with
        | nil =>
          obtain ⟨-, rfl⟩ := List.cons.inj h1
          exact ⟨rfl, rfl⟩
        | cons c l =>
          obtain ⟨rfl, -⟩ := List.cons.inj h1
          exact absurd (hb ▸ List.mem_cons_self) h2
    · simp only [splitLine, if_neg hb, Option.map_eq_some_iff, Prod.exists, Prod.mk.injEq]
      constructor
      · rintro ⟨l', r', hs, rfl, rfl⟩
        obtain ⟨rfl, hl⟩ := ih.1 hs
        exact ⟨rfl, by simp [hl, Ne.symm hb]⟩
      · rintro ⟨h1, h2⟩
        cases l with
        | nil =>
          obtain ⟨rfl, -⟩ := List.cons.inj h1
          exact absurd rfl hb
        | cons c l =>
          obtain ⟨rfl, rfl⟩ := List.cons.inj h1
          exact ⟨l, r, ih.2 ⟨rfl, fun hm => h2 (List.mem_cons_of_mem _ hm)⟩, rfl, rfl⟩

/-- The lines of a stream that are closed by the delimiter, and what follows the last of them. -/
def cutLines (d : α) : List α → List (List α) × List α
  | [] => ([], [])
  | b :: bs =>
    if b = d then ([] :: (cutLines d bs).1, (cutLines d bs).2)
    else
      match cutLines d bs with
      | ([], rest) => ([], b :: rest)
      | (l :: ls, rest) => ((b :: l) :: ls, rest)

/-- The lines of a stream that are closed by the delimiter. -/
def completeLines (d : α) (bs : List α) : List (List α) := (cutLines d bs).1

/-- The stream behind its first `n` complete lines. -/
def dropLines (d : α) : ℕ → List α → List α
  | 0, bs => bs
  | n + 1, bs =>
    match splitLine d bs with
    | some (_, rest) => dropLines d n rest
    | none => bs

theorem cutLines_of_some {d : α} {bs l r : List α} (h : splitLine d bs = some (l, r)) :
    cutLines d bs = (l :: (cutLines d r).1, (cutLines d r).2) := by
  induction bs generalizing l with
  | nil => cases h
  | cons b bs ih =>
    by_cases hb : b = d
    · rw [splitLine, if_pos hb] at h
      cases h
      rw [cutLines, if_pos hb]
    · rw [splitLine, if_neg hb] at h
      obtain ⟨⟨l', r'⟩, hs, he⟩ := Option.map_eq_some_iff.1 h
      cases he
      rw [cutLines, if_neg hb, ih hs]

theorem cutLines_of_none {d : α} {bs : List α} (h : splitLine d bs = none) :
    cutLines d bs = ([], bs) := by
  induction bs with
  | nil => rfl
  | cons b bs ih =>
    by_cases hb : b = d
    · rw [splitLine, if_pos hb] at h
      cases h
    · rw [splitLine, if_neg hb] at h
      rw [cutLines, if_neg hb, ih (Option.map_eq_none_iff.1 h)]

theorem completeLines_of_some {d : α} {bs l r : List α} (h : splitLine d bs = some (l, r)) :
    completeLines d bs = l :: completeLines d r := by
  rw [completeLines, cutLines_of_some h, completeLines]

theorem completeLines_of_none {d : α} {bs : List α} (h : splitLine d bs = none) :
    completeLines d bs = [] := by
  rw [completeLines, cutLines_of_none h]

theorem dropLines_of_some {d : α} {bs l r : List α} (h : splitLine d bs = some (l, r)) (n : ℕ) :
    dropLines d (n + 1) bs = dropLines d n r := by
  rw [dropLines, h]

theorem dropLines_of_none {d : α} {bs : List α} (h : splitLine d bs = none) (n : ℕ) :
    dropLines d n bs = bs := by
  cases n with
  | zero => rfl
  | succ n => rw [dropLines, h]

theorem completeLines_dropLines (d : α) (n : ℕ) (bs : List α) :
    completeLines d (dropLines d n bs) = (completeLines d bs).drop n := by
  induction n generalizing bs with
  | zero => rfl
  | succ n ih =>
    cases h : splitLine d bs with
    | none =>
      rw [dropLines_of_none h, completeLines_of_none h, List.drop_nil]
    | some l =>
      rw [dropLines_of_some h, ih, completeLines_of_some h, List.drop_succ_cons]

/-- What is behind a line is not looked at. -/
theorem splitLine_append {d : α} {bs l r : List α} (h : splitLine d bs = some (l, r)) (cs : List α) :
    splitLine d (bs ++ cs) = some (l, r ++ cs) := by
  obtain ⟨rfl, hl⟩ := splitLine_eq_some.1 h
  exact splitLine_eq_some.2 ⟨by simp, hl⟩

section Frame

variable (d : α) (line : M → List α)

/-- The stream of the messages `ms`. -/
def frame (ms : List M) : List α := (ms.map fun m => line m ++ [d]).flatten

/-- The messages whose delimiter is among the first `n` items of their stream. -/
def arrived : List M → ℕ → List M
  | [], _ => []
  | m :: ms, n =>
    if (line m).length < n then m :: arrived ms (n - ((line m).length + 1)) else []

section

omit [DecidableEq α]

@[simp] theorem frame_nil : frame d line [] = [] := rfl

@[simp] theorem frame_cons (m : M) (ms : List M) :
    frame d line (m :: ms) = line m ++ d :: frame d line ms := by
  simp [frame]

@[simp] theorem frame_append (ms ns : List M) :
    frame d line (ms ++ ns) = frame d line ms ++ frame d line ns := by
  simp [frame]

end

variable {d line}

/-- Two lists that start with lines start with the same line. -/
theorem line_eq_of_append {l l' r r' : List α} (hl : d ∉ l) (hl' : d ∉ l')
    (h : l ++ d :: r = l' ++ d :: r') : l = l' ∧ r = r' := by
  have h1 := splitLine_eq_some.2 ⟨h, hl'⟩
  rw [splitLine_eq_some.2 ⟨rfl, hl⟩] at h1
  obtain ⟨rfl, rfl⟩ := Prod.mk.inj (Option.some.inj h1)
  exact ⟨rfl, rfl⟩

/-- A line at the front of a prefix of a stream is the first message of the stream. -/
theorem frame_line {ms : List M} {l r : List α} (hd : ∀ m, d ∉ line m) (hl : d ∉ l)
    (hp : l ++ d :: r <+: frame d line ms) :
    ∃ m ms', ms = m :: ms' ∧ l = line m ∧ r <+: frame d line ms' := by
  obtain ⟨t, ht⟩ := hp
  cases ms with
  | nil => simp at ht
  | cons m ms =>
    rw [frame_cons, List.append_assoc, List.cons_append] at ht
    obtain ⟨h1, h2⟩ := line_eq_of_append hl (hd m) ht
    exact ⟨m, ms, rfl, h1, t, h2⟩

omit [DecidableEq α] in
/-- A prefix of a stream without a delimiter behind the frames of `ms` holds no further message. -/
theorem arrived_of_frame {ms ns : List M} {b : List α} (hb : d ∉ b)
    (hp : b <+: frame d line ns) : arrived line (ms ++ ns) (frame d line ms ++ b).length = ms := by
  induction ms with
  | nil =>
    cases ns with
    | nil => rfl
    | cons m ns =>
      obtain ⟨t, ht⟩ := hp
      have hlen : b.length ≤ (line m).length := by
        by_contra hlt
        rw [frame_cons] at ht
        obtain ⟨c, hc⟩ : ∃ c, b = line m ++ d :: c := by
          rcases List.append_eq_append_iff.1 ht with ⟨a, h1, h2⟩ | ⟨a, h1, h2⟩
          · have := congrArg List.length h1
            rw [List.length_append] at this
            omega
          · rcases a with _ | ⟨e, a⟩
            · rw [h1, List.append_nil] at hlt
              omega
            · rw [List.cons_append] at h2
              obtain ⟨rfl, -⟩ := List.cons.inj h2
              exact ⟨a, h1⟩
        exact hb (by rw [hc]; simp)
      simp only [List.nil_append, frame_nil, arrived, if_neg (Nat.not_lt.2 hlen)]
  | cons m ms ih =>
    have hlen : (frame d line (m :: ms) ++ b).length =
        (line m).length + 1 + (frame d line ms ++ b).length := by
      simp only [frame_cons, List.length_append, List.length_cons]
      omega
    rw [List.cons_append, arrived, if_pos (by omega), hlen, Nat.add_sub_cancel_left, ih]

/-- **The lines in a prefix of a stream** are those of the messages that have arrived. -/
theorem completeLines_of_prefix (hd : ∀ m, d ∉ line m) {ms : List M} {bs : List α}
    (hp : bs <+: frame d line ms) : completeLines d bs = (arrived line ms bs.length).map line := by
  induction ms generalizing bs with
  | nil =>
    rw [frame_nil, List.prefix_nil] at hp
    rw [hp]
    rfl
  | cons m ms ih =>
    rw [frame_cons] at hp
    rw [arrived]
    split_ifs with hlt
    · have hle : (line m ++ [d]).length ≤ bs.length := by
        rw [List.length_append, List.length_singleton]
        exact hlt
      obtain ⟨r, rfl⟩ := List.prefix_of_prefix_length_le ⟨frame d line ms, by simp⟩ hp hle
      have hr : r <+: frame d line ms := by
        rw [List.append_assoc, List.prefix_append_right_inj, List.singleton_append,
          List.cons_prefix_cons] at hp
        exact hp.2
      have hlen : (line m ++ [d] ++ r).length - ((line m).length + 1) = r.length := by
        simp only [List.length_append, List.length_singleton]
        omega
      rw [hlen, List.map_cons, ← ih hr]
      exact completeLines_of_some (splitLine_eq_some.2 ⟨by simp, hd m⟩)
    · have hb : d ∉ bs := by
        have : bs <+: line m := List.prefix_of_prefix_length_le hp (List.prefix_append _ _) (by omega)
        exact fun h => hd m (this.mem h)
      rw [List.map_nil]
      refine completeLines_of_none ?_
      cases h : splitLine d bs with
      | none => rfl
      | some x =>
        obtain ⟨rfl, -⟩ := splitLine_eq_some.1 h
        exact absurd (by simp) hb

end Frame

end DistRes.Lib
