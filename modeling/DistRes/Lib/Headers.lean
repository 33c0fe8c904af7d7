import Mathlib.Data.List.Infix
import Mathlib.Tactic.Common

/-!
# Records behind headers

A log is a sequence of records, each of them a header and a text.  A header tells where a record
begins; nothing tells where it ends.

* `Marked` — headers of one length that begin with a mark which is nowhere else in them;
* `Plain` — no text of the records has a header in it;
* `plain_unique`, `exists_plain` — every log is the log of exactly one plain sequence of records, so
  that no further sequence can be added to the plain ones without two of them having one log.
-/

namespace DistRes.Lib

variable {α K : Type*}

/-- Headers of length `n` that begin with `mark` and have it nowhere else. -/
structure Marked (header : K → List α) (mark : α) (n : ℕ) : Prop where
  starts : ∀ k, ∃ t, header k = mark :: t ∧ mark ∉ t
  length : ∀ k, (header k).length = n
  injective : Function.Injective header

/-- The log of the given records. -/
def logOf (header : K → List α) (rs : List (K × List α)) : List α :=
  rs.flatMap fun r => header r.1 ++ r.2

/-- No text has a header in it. -/
def Plain (header : K → List α) (rs : List (K × List α)) : Prop :=
  ∀ r ∈ rs, ∀ k, ¬ header k <:+: r.2

variable {header : K → List α} {mark : α} {n : ℕ} {rs rs' : List (K × List α)}

theorem logOf_cons (r : K × List α) (rs : List (K × List α)) :
    logOf header (r :: rs) = header r.1 ++ (r.2 ++ logOf header rs) := by
  simp [logOf]

theorem logOf_append (rs rs' : List (K × List α)) :
    logOf header (rs ++ rs') = logOf header rs ++ logOf header rs' :=
  List.flatMap_append

theorem Plain.append (h : Plain header rs) (h' : Plain header rs') : Plain header (rs ++ rs') := by
  intro r hr
  rcases List.mem_append.1 hr with hr | hr
  · exact h r hr
  · exact h' r hr

namespace Marked

/-- The rest of a header does not begin with the mark. -/
theorem head_rest (hm : Marked header mark n) {k : K} {z y : List α} (h : header k = z ++ y)
    (hz : z ≠ []) : y.head? ≠ some mark := by
  obtain ⟨t, ht, hmark⟩ := hm.starts k
  obtain ⟨b, z, rfl⟩ := List.exists_cons_of_ne_nil hz
  obtain ⟨-, rfl⟩ := List.cons.inj (ht.symm.trans h)
  intro hy
  exact hmark (List.mem_append_right _ (List.mem_of_head? hy))

theorem head_logOf (hm : Marked header mark n) (h : logOf header rs ≠ []) :
    (logOf header rs).head? = some mark := by
  cases rs with
  | nil => exact absurd rfl h
  | cons r rs =>
    obtain ⟨t, ht, -⟩ := hm.starts r.1
    rw [logOf_cons, ht]
    rfl

/-- A text that ends inside a longer one without a header, with logs behind both, is the longer one. -/
theorem rest_nil (hm : Marked header mark n) {x z : List α} (hx : ∀ k, ¬ header k <:+: x ++ z)
    (h : logOf header rs = z ++ logOf header rs') : z = [] := by
  by_contra hz
  cases rs with
  | nil => exact hz (List.append_eq_nil_iff.1 h.symm).1
  | cons r rs =>
    rw [logOf_cons] at h
    rcases List.append_eq_append_iff.1 h with ⟨c, hc, -⟩ | ⟨c, hc, hrest⟩
    · -- the header is in the longer text
      apply hx r.1
      rw [hc]
      exact ⟨x, c, by simp⟩
    · by_cases hnil : c = []
      · apply hx r.1
        rw [hc, hnil, List.append_nil]
        exact ⟨x, [], by simp⟩
      · -- the header begins in the text and goes on in the log behind it
        have hlog : logOf header rs' ≠ [] := by
          rw [hrest]
          exact List.append_ne_nil_of_left_ne_nil hnil _
        have hhead := hm.head_logOf hlog
        rw [hrest, List.head?_append_of_ne_nil _ hnil] at hhead
        exact hm.head_rest hc hz hhead

/-- **A log is the log of one plain sequence only.** -/
theorem plain_unique (hm : Marked header mark n) (h : Plain header rs) (h' : Plain header rs')
    (heq : logOf header rs = logOf header rs') : rs = rs' := by
  have hne : ∀ (r : K × List α) (rs : List (K × List α)), logOf header (r :: rs) ≠ [] := by
    intro r rs hnil
    obtain ⟨t, ht, -⟩ := hm.starts r.1
    rw [logOf_cons, ht] at hnil
    cases hnil
  induction rs generalizing rs' with
  | nil =>
    cases rs' with
    | nil => rfl
    | cons r' rs' => exact absurd heq.symm (hne r' rs')
  | cons r rs ih =>
    cases rs' with
    | nil => exact absurd heq (hne r rs)
    | cons r' rs' =>
      have hx := h r List.mem_cons_self
      have hx' := h' r' List.mem_cons_self
      rw [logOf_cons, logOf_cons] at heq
      obtain ⟨hk, htext⟩ := List.append_inj heq ((hm.length _).trans (hm.length _).symm)
      -- the shorter of the two texts is the longer one
      have hsame : r.2 = r'.2 ∧ logOf header rs = logOf header rs' := by
        rcases List.append_eq_append_iff.1 htext with ⟨z, hz, hlog⟩ | ⟨z, hz, hlog⟩
        · rw [hz] at hx' ⊢
          obtain rfl := hm.rest_nil hx' hlog
          exact ⟨(List.append_nil _).symm, hlog⟩
        · rw [hz] at hx ⊢
          obtain rfl := hm.rest_nil hx hlog
          exact ⟨List.append_nil _, hlog.symm⟩
      have hrest := ih (fun q hq => h q (List.mem_cons_of_mem _ hq))
        (fun q hq => h' q (List.mem_cons_of_mem _ hq)) hsame.2
      rw [hrest, Prod.ext (hm.injective hk) hsame.1]

/-- One record is cut at the headers in its text. -/
theorem exists_plain_one (hm : Marked header mark n) (x : List α) : ∀ k : K, ∃ rs,
    Plain header rs ∧ logOf header rs = header k ++ x ∧ ∀ r ∈ rs, r.2 <:+: x := by
  induction hlen : x.length using Nat.strong_induction_on generalizing x with
  | _ m ih =>
    intro k
    by_cases hplain : ∀ j, ¬ header j <:+: x
    · exact ⟨[(k, x)], by simpa [Plain] using hplain, by simp [logOf], by simp⟩
    · obtain ⟨j, a, b, hx⟩ := not_forall_not.1 hplain
      obtain ⟨t, ht, -⟩ := hm.starts j
      have hl : a.length + (t.length + 1) + b.length = m := by
        rw [← hlen, ← hx, ht]
        simp only [List.length_append, List.length_cons]
      obtain ⟨rs, hrs, hlog, hin⟩ := ih a.length (by omega) a rfl k
      obtain ⟨rs', hrs', hlog', hin'⟩ := ih b.length (by omega) b rfl j
      refine ⟨rs ++ rs', hrs.append hrs', ?_, fun r hr => ?_⟩
      · rw [logOf_append, hlog, hlog', ← hx]
        simp
      · rcases List.mem_append.1 hr with hr | hr
        · exact (hin r hr).trans ⟨[], header j ++ b, by rw [← hx, List.nil_append, List.append_assoc]⟩
        · exact (hin' r hr).trans ⟨a ++ header j, [], by rw [← hx, List.append_nil]⟩

/-- **Every log is the log of a plain sequence**, whose texts are parts of the given ones. -/
theorem exists_plain (hm : Marked header mark n) (rs : List (K × List α)) : ∃ rs',
    Plain header rs' ∧ logOf header rs' = logOf header rs ∧ ∀ r' ∈ rs', ∃ r ∈ rs, r'.2 <:+: r.2 := by
  induction rs with
  | nil => exact ⟨[], by simp [Plain], rfl, by simp⟩
  | cons r rs ih =>
    obtain ⟨rs', hrs', hlog', hin'⟩ := ih
    obtain ⟨ss, hss, hlog, hin⟩ := hm.exists_plain_one r.2 r.1
    refine ⟨ss ++ rs', hss.append hrs', ?_, fun q hq => ?_⟩
    · rw [logOf_append, logOf_cons, hlog, hlog', List.append_assoc]
    · rcases List.mem_append.1 hq with hq | hq
      · exact ⟨r, List.mem_cons_self, hin q hq⟩
      · obtain ⟨p, hp, hpq⟩ := hin' q hq
        exact ⟨p, List.mem_cons_of_mem _ hp, hpq⟩

end Marked

end DistRes.Lib
