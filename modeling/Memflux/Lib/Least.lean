import Mathlib

/-! # The least of a set

`Least k S l`: the list `l` is the `k` least members of `S` in order, or all of them when
there are fewer. Sorting new members in, dropping repetitions and cutting at `k` keeps
this, so that an accumulator that does so after each batch has the least of all batches.
-/

namespace Selecting

variable {α : Type} [LinearOrder α]

structure Least (k : ℕ) (S : Set α) (l : List α) : Prop where
  sorted : l.Pairwise (· < ·)
  short : l.length ≤ k
  inside : ∀ x ∈ l, x ∈ S
  least : ∀ x ∈ S, x ∉ l → l.length = k ∧ ∀ y ∈ l, y < x

/-- `sort`, `unique` and `resize`. -/
def settle (k : ℕ) (l : List α) : List α := ((l.insertionSort (· ≤ ·)).destutter (· ≠ ·)).take k

theorem Least.empty (k : ℕ) : Least k (∅ : Set α) [] := ⟨.nil, Nat.zero_le k, nofun, nofun⟩

theorem sorted_unique (l : List α) :
    ((l.insertionSort (· ≤ ·)).destutter (· ≠ ·)).Pairwise (· < ·) ∧
      ∀ x, x ∈ (l.insertionSort (· ≤ ·)).destutter (· ≠ ·) ↔ x ∈ l := by
  have hsorted := List.pairwise_insertionSort (· ≤ ·) l
  rw [hsorted.destutter_eq_dedup]
  refine ⟨?_, fun x => ?_⟩
  · have hle := hsorted.sublist (List.dedup_sublist _)
    have hne := List.nodup_dedup (l.insertionSort (· ≤ ·))
    exact (hle.and hne).imp fun h => lt_of_le_of_ne h.1 h.2
  · rw [List.mem_dedup, List.mem_insertionSort]

theorem lt_of_mem_take {l : List α} (h : l.Pairwise (· < ·)) {k : ℕ} {x y : α} (hy : y ∈ l.take k)
    (hx : x ∈ l) (hnot : x ∉ l.take k) : y < x := by
  rw [← List.take_append_drop k l] at h hx
  obtain ⟨-, -, hbelow⟩ := List.pairwise_append.mp h
  exact hbelow y hy x ((List.mem_append.mp hx).resolve_left hnot)

theorem settle_least (k : ℕ) (l : List α) : Least k { x | x ∈ l } (settle k l) := by
  obtain ⟨hsorted, hmem⟩ := sorted_unique l
  refine ⟨hsorted.sublist (List.take_sublist k _), List.length_take_le k _, fun x hx => ?_, fun x hx hnot => ?_⟩
  · exact (hmem x).mp (List.mem_of_mem_take hx)
  · have hin := (hmem x).mpr hx
    refine ⟨?_, fun y hy => lt_of_mem_take hsorted hy hin hnot⟩
    by_contra hshort
    have hall : ((l.insertionSort (· ≤ ·)).destutter (· ≠ ·)).length ≤ k := by
      rw [settle, List.length_take] at hshort
      omega
    rw [settle, List.take_of_length_le hall] at hnot
    exact hnot hin

theorem length_le_of_subset {l m : List α} (hl : l.Pairwise (· < ·)) (h : l ⊆ m) : l.length ≤ m.length :=
  (List.Nodup.subperm (hl.imp ne_of_lt) h).length_le

/-- Members that are not among the least of a part are not among the least. -/
theorem Least.settle {k : ℕ} {S : Set α} {l : List α} (h : Least k S l) (m : List α) :
    Least k (S ∪ { x | x ∈ m }) (settle k (l ++ m)) := by
  have hnew := settle_least k (l ++ m)
  refine ⟨hnew.sorted, hnew.short, fun x hx => ?_, fun x hx hnot => ?_⟩
  · rcases List.mem_append.mp (hnew.inside x hx) with hl | hm
    · exact .inl (h.inside x hl)
    · exact .inr hm
  · by_cases hin : x ∈ l ++ m
    · exact hnew.least x hin hnot
    · obtain ⟨hl, hm⟩ := not_or.mp fun h => hin (List.mem_append.mpr h)
      have hS : x ∈ S := hx.resolve_right hm
      obtain ⟨hfull, hbelow⟩ := h.least x hS hl
      have hlarger : ∀ z ∈ l, z ∉ Selecting.settle k (l ++ m) →
          (Selecting.settle k (l ++ m)).length = k ∧ ∀ y ∈ Selecting.settle k (l ++ m), y < z :=
        fun z hz => hnew.least z (List.mem_append_left m hz)
      constructor
      · by_contra hshort
        have hsub : l ⊆ Selecting.settle k (l ++ m) := fun z hz => by
          by_contra hnotz
          exact hshort (hlarger z hz hnotz).1
        have hlength := length_le_of_subset h.sorted hsub
        rw [hfull] at hlength
        exact hshort (le_antisymm hnew.short hlength)
      · intro y hy
        by_contra hyx
        have hxy : x ≤ y := not_lt.mp hyx
        -- All of `l` is below `y`, and would be `k` members besides it.
        have hcons : (l ++ [y]) ⊆ Selecting.settle k (l ++ m) := by
          intro z hz
          rcases List.mem_append.mp hz with hz | hz
          · by_contra hnotz
            exact lt_asymm ((hbelow z hz).trans_le hxy) ((hlarger z hz hnotz).2 y hy)
          · rw [List.mem_singleton.mp hz]
            exact hy
        have hsorted : (l ++ [y]).Pairwise (· < ·) :=
          List.pairwise_append.mpr ⟨h.sorted, List.pairwise_singleton _ _, fun z hz w hw => by
            rw [List.mem_singleton.mp hw]
            exact (hbelow z hz).trans_le hxy⟩
        have hlength := length_le_of_subset hsorted hcons
        have hshort := hnew.short
        rw [List.length_append, List.length_singleton] at hlength
        omega

end Selecting
