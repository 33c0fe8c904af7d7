import Mathlib.Data.List.TakeWhile
import Mathlib.Tactic.Common

/-!
# Scanners

A scanner takes a value off the front of its input.  `Scans p R follow`: it takes exactly the texts of
the grammar `R`, wherever what follows them may do so.

* `manyTill` — values one after the other, up to a closing token;
* `block` — values with separators between them and blanks around these, up to a closing token;
* `scans_manyTill`, `scans_block` — they scan the grammars `Concat` and `Block`.
-/

namespace DistRes.Lib

variable {α β : Type*}

/-- A scanner gives a value and the input behind it. -/
abbrev Scanner (α β : Type*) := List α → Option (β × List α)

/-- The scanner takes exactly the texts of `R`, where what is behind them may follow. -/
structure Scans (p : Scanner α β) (R : List α → β → Prop) (follow : List α → Prop) : Prop where
  sound : ∀ s x rest, p s = some (x, rest) → ∃ t, s = t ++ rest ∧ R t x
  complete : ∀ t x rest, R t x → follow rest → p (t ++ rest) = some (x, rest)

/-- What is behind the text does not begin with such a token. -/
def NoHead (p : α → Bool) (rest : List α) : Prop := ∀ a ∈ rest.head?, p a = false

@[simp] theorem noHead_nil (p : α → Bool) : NoHead p ([] : List α) := nofun

@[simp] theorem noHead_cons (p : α → Bool) (a : α) (l : List α) : NoHead p (a :: l) ↔ p a = false := by
  simp [NoHead]

theorem NoHead.append {p : α → Bool} {l rest : List α} (hl : NoHead p l) (hr : NoHead p rest) :
    NoHead p (l ++ rest) := by
  cases l with
  | nil => exact hr
  | cons a l => simpa using hl

/-! ## Runs -/

theorem takeWhile_append_of_noHead {p : α → Bool} {t rest : List α} (ht : ∀ a ∈ t, p a = true)
    (hr : NoHead p rest) : (t ++ rest).takeWhile p = t := by
  rw [List.takeWhile_append_of_pos ht]
  cases rest with
  | nil => simp
  | cons a l =>
    rw [List.takeWhile_cons_of_neg (by simpa using hr), List.append_nil]

theorem dropWhile_append_of_noHead {p : α → Bool} {t rest : List α} (ht : ∀ a ∈ t, p a = true)
    (hr : NoHead p rest) : (t ++ rest).dropWhile p = rest := by
  rw [List.dropWhile_append_of_pos ht]
  cases rest with
  | nil => rfl
  | cons a l => rw [List.dropWhile_cons_of_neg (by simpa using hr)]

/-- Blanks, as many as there are. -/
theorem exists_blanks (p : α → Bool) (l : List α) : ∃ w, (∀ a ∈ w, p a = true) ∧ l = w ++ l.dropWhile p :=
  ⟨l.takeWhile p, fun _ => List.mem_takeWhile_imp, (List.takeWhile_append_dropWhile).symm⟩

/-! ## Words -/

section Words

variable [DecidableEq α]

/-- The given word, for the given value. -/
def word (w : List α) (x : β) : Scanner α β := fun s =>
  if w <+: s then some (x, s.drop w.length) else none

theorem word_eq_some {w s rest : List α} {x y : β} :
    word w x s = some (y, rest) ↔ s = w ++ rest ∧ y = x := by
  unfold word
  constructor
  · intro h
    split at h
    · rename_i hw
      obtain ⟨rest', rfl⟩ := hw
      cases h
      simp
    · cases h
  · rintro ⟨rfl, rfl⟩
    simp

end Words

/-! ## Values one after the other -/

/-- The text is that of the values one after the other. -/
inductive Concat (R : List α → β → Prop) : List α → List β → Prop
  | nil : Concat R [] []
  | cons {t ts : List α} {x : β} {xs : List β} : R t x → Concat R ts xs → Concat R (t ++ ts) (x :: xs)

theorem Concat.flatMap {R : List α → β → Prop} {f : β → List α} {xs : List β} (h : ∀ x ∈ xs, R (f x) x) :
    Concat R (xs.flatMap f) xs := by
  induction xs with
  | nil => exact .nil
  | cons x xs ih =>
    rw [List.flatMap_cons]
    exact .cons (h x List.mem_cons_self) (ih fun y hy => h y (List.mem_cons_of_mem _ hy))

theorem Concat.append {R : List α → β → Prop} {t t' : List α} {xs ys : List β} (h : Concat R t xs)
    (h' : Concat R t' ys) : Concat R (t ++ t') (xs ++ ys) := by
  induction h with
  | nil => exact h'
  | cons hx _ ih =>
    rw [List.append_assoc]
    exact .cons hx ih

section Many

variable [DecidableEq α]

/-- At most `n` values, up to the closing token, which is taken too. -/
def manyTill (p : Scanner α β) (close : α) : ℕ → Scanner α (List β)
  | 0, _ => none
  | _ + 1, [] => none
  | n + 1, a :: s =>
    if a = close then some ([], s)
    else (p (a :: s)).bind fun r => (manyTill p close n r.2).map fun r' => (r.1 :: r'.1, r'.2)

variable {p : Scanner α β} {R : List α → β → Prop} {close : α}

theorem manyTill_sound
    (hp : ∀ a s x rest, a ≠ close → p (a :: s) = some (x, rest) → ∃ t, a :: s = t ++ rest ∧ R t x)
    {n : ℕ} {s rest : List α} {xs : List β} (h : manyTill p close n s = some (xs, rest)) :
    ∃ t, s = t ++ close :: rest ∧ Concat R t xs := by
  induction n generalizing s xs with
  | zero => cases h
  | succ n ih =>
    cases s with
    | nil => cases h
    | cons a s =>
      rw [manyTill] at h
      split at h
      · rename_i ha
        cases h
        exact ⟨[], by rw [ha]; rfl, .nil⟩
      · rename_i ha
        obtain ⟨⟨x, s'⟩, hx, h⟩ := Option.bind_eq_some_iff.1 h
        obtain ⟨⟨ys, rest'⟩, hys, he⟩ := Option.map_eq_some_iff.1 h
        cases he
        obtain ⟨t, hs, ht⟩ := hp _ _ _ _ ha hx
        obtain ⟨ts, rfl, hts⟩ := ih hys
        exact ⟨t ++ ts, by rw [hs, List.append_assoc], .cons ht hts⟩

/-- The values are found where their texts do not begin with the closing token and each may be
followed by the next and by the closing token. -/
theorem manyTill_complete {t rest : List α} {xs : List β} (ht : Concat R t xs)
    (hp : ∀ t x rest, R t x → p (t ++ rest) = some (x, rest))
    (hne : ∀ t x, R t x → ∃ a l, t = a :: l ∧ a ≠ close) :
    ∀ n, t.length < n → manyTill p close n (t ++ close :: rest) = some (xs, rest) := by
  induction ht with
  | nil =>
    intro n hn
    obtain ⟨n, rfl⟩ := Nat.exists_eq_succ_of_ne_zero (Nat.ne_of_gt hn)
    simp [manyTill]
  | @cons t ts x xs hx _ ih =>
    intro n hn
    obtain ⟨a, l, rfl, ha⟩ := hne t x hx
    simp only [List.cons_append, List.length_cons, List.length_append] at hn
    obtain ⟨n, rfl⟩ : ∃ m, n = m + 1 := ⟨n - 1, by omega⟩
    have hnext := hp _ _ (ts ++ close :: rest) hx
    simp only [List.cons_append, List.append_assoc] at hnext ⊢
    rw [manyTill, if_neg ha, hnext, Option.bind_some, ih n (by omega)]
    rfl

/-- **Runs.**  Values up to the closing token are scanned if each value is, whose text does not begin
with this token. -/
theorem scans_manyTill
    (hs : ∀ a s x rest, a ≠ close → p (a :: s) = some (x, rest) → ∃ t, a :: s = t ++ rest ∧ R t x)
    (hc : ∀ t x rest, R t x → p (t ++ rest) = some (x, rest))
    (hne : ∀ t x, R t x → ∃ a l, t = a :: l ∧ a ≠ close) :
    Scans (fun s => manyTill p close s.length s) (fun t xs => ∃ t', t = t' ++ [close] ∧ Concat R t' xs)
      fun _ => True where
  sound s xs rest h := by
    obtain ⟨t, rfl, ht⟩ := manyTill_sound hs h
    exact ⟨t ++ [close], by simp, t, rfl, ht⟩
  complete t xs rest h _ := by
    obtain ⟨t, rfl, ht⟩ := h
    rw [List.append_assoc, List.singleton_append]
    exact manyTill_complete ht hc hne _ (by simp)

end Many

/-! ## Values with separators -/

/-- The tokens of a block. -/
structure Brackets (α : Type*) where
  sep : α
  close : α
  blank : α → Bool
  sep_ne_close : sep ≠ close
  blank_sep : blank sep = false
  blank_close : blank close = false

section Blocks

variable [DecidableEq α] (b : Brackets α) (R : List α → β → Prop)

/-- At least one value, with separators between them, and the closing token. -/
inductive Items : List α → List β → Prop
  | last {t w : List α} {x : β} : R t x → (∀ a ∈ w, b.blank a = true) → Items (t ++ (w ++ [b.close])) [x]
  | cons {t w w' ts : List α} {x : β} {xs : List β} : R t x → (∀ a ∈ w, b.blank a = true) →
      (∀ a ∈ w', b.blank a = true) → Items ts xs → Items (t ++ (w ++ b.sep :: (w' ++ ts))) (x :: xs)

/-- What stands behind an opening bracket, with the closing one. -/
inductive Block : List α → List β → Prop
  | empty {w : List α} : (∀ a ∈ w, b.blank a = true) → Block (w ++ [b.close]) []
  | items {w t : List α} {xs : List β} : (∀ a ∈ w, b.blank a = true) → Items b R t xs → Block (w ++ t) xs

variable {R} (p : Scanner α β)

/-- At least one value, at most `n`, with the closing token. -/
def items : ℕ → Scanner α (List β)
  | 0, _ => none
  | n + 1, s =>
    (p s).bind fun r =>
      match r.2.dropWhile b.blank with
      | [] => none
      | a :: s =>
        if a = b.close then some ([r.1], s)
        else if a = b.sep then
          (items n (s.dropWhile b.blank)).map fun r' => (r.1 :: r'.1, r'.2)
        else none

/-- What stands behind an opening bracket. -/
def block : Scanner α (List β) := fun s =>
  match s.dropWhile b.blank with
  | [] => none
  | a :: s => if a = b.close then some ([], s) else items b p (a :: s).length (a :: s)

variable {b p} {follow : List α → Prop}

theorem items_sound (hp : ∀ s x rest, p s = some (x, rest) → ∃ t, s = t ++ rest ∧ R t x) {n : ℕ}
    {s rest : List α} {xs : List β} (h : items b p n s = some (xs, rest)) :
    ∃ t, s = t ++ rest ∧ Items b R t xs := by
  induction n generalizing s xs with
  | zero => cases h
  | succ n ih =>
    rw [items] at h
    obtain ⟨⟨x, s'⟩, hx, hr⟩ := Option.bind_eq_some_iff.1 h
    obtain ⟨t, rfl, ht⟩ := hp _ _ _ hx
    obtain ⟨w, hw, hs'⟩ := exists_blanks b.blank s'
    split at hr
    · cases hr
    · rename_i a s hdrop
      simp only at hdrop
      rw [hdrop] at hs'
      split at hr
      · rename_i ha
        cases hr
        exact ⟨t ++ (w ++ [b.close]), by rw [hs', ha]; simp, .last ht hw⟩
      · split at hr
        · rename_i ha
          obtain ⟨⟨ys, rest'⟩, hys, he⟩ := Option.map_eq_some_iff.1 hr
          cases he
          obtain ⟨ts, hts, hitems⟩ := ih hys
          obtain ⟨w', hw', hs⟩ := exists_blanks b.blank s
          refine ⟨t ++ (w ++ b.sep :: (w' ++ ts)), ?_, .cons ht hw hw' hitems⟩
          rw [hs', ha, hs, hts]
          simp
        · cases hr

/-- What may follow a value of a block. -/
def Follows (b : Brackets α) (follow : List α → Prop) : Prop :=
  ∀ a l, b.blank a = true ∨ a = b.sep ∨ a = b.close → follow (a :: l)

omit [DecidableEq α] in
theorem Follows.behind (hf : Follows b follow) {w : List α} (hw : ∀ a ∈ w, b.blank a = true) {a : α}
    (ha : a = b.sep ∨ a = b.close) (l : List α) : follow (w ++ a :: l) := by
  cases w with
  | nil => exact hf a l (.inr ha)
  | cons c w => exact hf c _ (.inl (hw c List.mem_cons_self))

omit [DecidableEq α] in
theorem items_head (hne : ∀ t x, R t x → ∃ a l, t = a :: l ∧ b.blank a = false ∧ a ≠ b.close) {t : List α}
    {xs : List β} (ht : Items b R t xs) : ∃ a l, t = a :: l ∧ b.blank a = false ∧ a ≠ b.close := by
  cases ht with
  | last hx | cons hx =>
    obtain ⟨a, l, rfl, ha⟩ := hne _ _ hx
    exact ⟨a, _, rfl, ha⟩

section

omit [DecidableEq α]

variable {γ : Type*} {f : γ → List α} {g : γ → β}

theorem items_intercalate {w : List α} (hw : ∀ a ∈ w, b.blank a = true) {xs : List γ} (hne : xs ≠ [])
    (h : ∀ x ∈ xs, R (f x) (g x)) :
    Items b R ((b.sep :: w).intercalate (xs.map f) ++ [b.close]) (xs.map g) := by
  induction xs with
  | nil => exact absurd rfl hne
  | cons x xs ih =>
    have hx := h x List.mem_cons_self
    cases xs with
    | nil =>
      rw [List.map_singleton, List.map_singleton, List.intercalate_singleton]
      exact .last (w := []) hx (List.forall_mem_nil _)
    | cons y xs =>
      have hrest := ih (List.cons_ne_nil _ _) fun z hz => h z (List.mem_cons_of_mem _ hz)
      have := Items.cons (w := []) hx (List.forall_mem_nil _) hw hrest
      simpa using this

/-- The texts of values, with a separator and blanks between them, are a block. -/
theorem block_intercalate {w : List α} (hw : ∀ a ∈ w, b.blank a = true) {xs : List γ}
    (h : ∀ x ∈ xs, R (f x) (g x)) :
    Block b R ((b.sep :: w).intercalate (xs.map f) ++ [b.close]) (xs.map g) := by
  by_cases hne : xs = []
  · subst hne
    exact .empty (w := []) (List.forall_mem_nil _)
  · exact .items (w := []) (List.forall_mem_nil _) (items_intercalate hw hne h)

end

theorem items_complete {t rest : List α} {xs : List β} (ht : Items b R t xs)
    (hp : ∀ t x rest, R t x → follow rest → p (t ++ rest) = some (x, rest)) (hf : Follows b follow)
    (hne : ∀ t x, R t x → ∃ a l, t = a :: l ∧ b.blank a = false ∧ a ≠ b.close) :
    ∀ n, t.length ≤ n → items b p n (t ++ rest) = some (xs, rest) := by
  have hclose : ∀ l, NoHead b.blank (b.close :: l) := fun l => by simp [b.blank_close]
  have hsep : ∀ l, NoHead b.blank (b.sep :: l) := fun l => by simp [b.blank_sep]
  induction ht with
  | @last t w x hx hw =>
    intro n hn
    obtain ⟨n, rfl⟩ : ∃ m, n = m + 1 := ⟨n - 1, by simp at hn; omega⟩
    have hnext := hp t x (w ++ b.close :: rest) hx (hf.behind hw (.inr rfl) rest)
    simp only [List.append_assoc, List.cons_append, List.nil_append]
    rw [items, hnext]
    simp only [Option.bind_some, dropWhile_append_of_noHead hw (hclose rest)]
    rw [if_pos trivial]
  | @cons t w w' ts x xs hx hw hw' hts ih =>
    intro n hn
    obtain ⟨a, l, hts', ha, -⟩ := items_head hne hts
    obtain ⟨n, rfl⟩ : ∃ m, n = m + 1 := ⟨n - 1, by simp at hn; omega⟩
    have hnext := hp t x (w ++ b.sep :: (w' ++ (ts ++ rest))) hx (hf.behind hw (.inl rfl) _)
    have hhead : NoHead b.blank (ts ++ rest) := by simp [hts', ha]
    simp only [List.append_assoc, List.cons_append]
    rw [items, hnext]
    simp only [Option.bind_some, dropWhile_append_of_noHead hw (hsep _)]
    rw [if_neg b.sep_ne_close, if_pos trivial, dropWhile_append_of_noHead hw' hhead,
      ih n (by simp at hn; omega)]
    rfl

/-- **Blocks.**  A block is scanned if its values are, which do not begin with a blank or with the
closing token and may be followed by blanks, by the separator and by the closing token. -/
theorem scans_block (hp : Scans p R follow) (hf : Follows b follow)
    (hne : ∀ t x, R t x → ∃ a l, t = a :: l ∧ b.blank a = false ∧ a ≠ b.close) :
    Scans (block b p) (Block b R) fun _ => True where
  sound s xs rest h := by
    obtain ⟨w, hw, hs⟩ := exists_blanks b.blank s
    unfold block at h
    split at h
    · cases h
    · rename_i a s' hdrop
      rw [hdrop] at hs
      split at h
      · rename_i ha
        cases h
        exact ⟨w ++ [b.close], by rw [hs, ha]; simp, .empty hw⟩
      · obtain ⟨t, ht, hitems⟩ := items_sound hp.sound h
        exact ⟨w ++ t, by rw [hs, ht, List.append_assoc], .items hw hitems⟩
  complete t xs rest h _ := by
    cases h with
    | @empty w hw =>
      have hclose : NoHead b.blank (b.close :: rest) := by simp [b.blank_close]
      rw [block, List.append_assoc, List.singleton_append, dropWhile_append_of_noHead hw hclose]
      exact if_pos rfl
    | @items w t _ hw hitems =>
      obtain ⟨a, l, rfl, ha, hclose⟩ := items_head hne hitems
      have hhead : NoHead b.blank (a :: l ++ rest) := by simp [ha]
      rw [block, List.append_assoc, dropWhile_append_of_noHead hw hhead]
      simp only [List.cons_append]
      rw [if_neg hclose]
      exact items_complete hitems hp.complete hf hne _ (by simp)

end Blocks

end DistRes.Lib
