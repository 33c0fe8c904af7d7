import Mathlib.Logic.Relation
import Mathlib.Order.WellFounded

/-!
# Wait-for graphs

Threads `T` that wait for resources `R`, each for one at most, and that stand in the way of others that
wait for them.

* `WaitsFor` — the wait-for graph;
* `TakenInOrder` — whoever stands in the way of a resource waits for one of a higher rank only;
* `TakenInOrder.acyclic` — then the graph has no cycle;
* `TakenInOrder.leads_on` — and from every thread it leads to one that waits for nobody.
-/

namespace DistRes.Lib

variable {T R α : Type*} {wants : T → Option R} {blocks : T → R → Prop} {rank : R → α}

/-- `t` waits for a resource that `u` stands in the way of. -/
def WaitsFor (wants : T → Option R) (blocks : T → R → Prop) (t u : T) : Prop :=
  ∃ r, wants t = some r ∧ blocks u r

theorem not_waitsFor {t : T} (ht : wants t = none) (u : T) : ¬ WaitsFor wants blocks t u := by
  rintro ⟨r, hr, -⟩
  cases hr.symm.trans ht

/-- Whoever stands in the way of a resource waits for one of a higher rank, if for any. -/
def TakenInOrder [LT α] (rank : R → α) (wants : T → Option R) (blocks : T → R → Prop) : Prop :=
  ∀ u r r', blocks u r → wants u = some r' → rank r < rank r'

/-- Along the graph, the ranks of what the threads wait for go up. -/
theorem TakenInOrder.lt_of_path [Preorder α] (h : TakenInOrder rank wants blocks) {t u : T} {r' : R}
    (hpath : Relation.TransGen (WaitsFor wants blocks) t u) (hu : wants u = some r') :
    ∃ r, wants t = some r ∧ rank r < rank r' := by
  induction hpath generalizing r' with
  | single hedge =>
    obtain ⟨r, hr, hb⟩ := hedge
    exact ⟨r, hr, h _ r r' hb hu⟩
  | tail _ hedge ih =>
    obtain ⟨m, hm, hb⟩ := hedge
    obtain ⟨r, hr, hlt⟩ := ih hm
    exact ⟨r, hr, hlt.trans (h _ m r' hb hu)⟩

/-- **Resources taken in order**: no thread waits for itself, over however many others. -/
theorem TakenInOrder.acyclic [Preorder α] (h : TakenInOrder rank wants blocks) (t : T) :
    ¬ Relation.TransGen (WaitsFor wants blocks) t t := by
  intro hcycle
  obtain ⟨u, ⟨r, hr, -⟩, -⟩ := Relation.TransGen.head'_iff.1 hcycle
  obtain ⟨r', hr', hlt⟩ := h.lt_of_path hcycle hr
  cases hr.symm.trans hr'
  exact lt_irrefl _ hlt

/-- **Who waits is led on** to a thread that waits for nobody. -/
theorem TakenInOrder.leads_on [Preorder α] [WellFoundedGT α] (h : TakenInOrder rank wants blocks)
    (t : T) : ∃ u, Relation.ReflTransGen (WaitsFor wants blocks) t u ∧
      ∀ v, ¬ WaitsFor wants blocks u v := by
  have wanting : ∀ r t, wants t = some r → ∃ u, Relation.ReflTransGen (WaitsFor wants blocks) t u ∧
      ∀ v, ¬ WaitsFor wants blocks u v := by
    intro r
    -- downwards from the highest rank
    induction hrank : rank r using WellFoundedGT.induction generalizing r with
    | ind x ih =>
      subst hrank
      intro t ht
      by_cases hedge : ∃ v, WaitsFor wants blocks t v
      · obtain ⟨v, r₀, hr₀, hb⟩ := hedge
        have hfirst : WaitsFor wants blocks t v := ⟨r₀, hr₀, hb⟩
        cases hv : wants v with
        | none => exact ⟨v, .single hfirst, not_waitsFor hv⟩
        | some r' =>
          cases ht.symm.trans hr₀
          obtain ⟨u, hpath, hend⟩ := ih (rank r') (h v r r' hb hv) r' rfl v hv
          exact ⟨u, .head hfirst hpath, hend⟩
      · exact ⟨t, .refl, fun v hv => hedge ⟨v, hv⟩⟩
  cases ht : wants t with
  | some r => exact wanting r t ht
  | none => exact ⟨t, .refl, not_waitsFor ht⟩

end DistRes.Lib
