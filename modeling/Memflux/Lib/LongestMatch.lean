import Mathlib

/-! # The first of the longest matches

A search over the indices below a bound that keeps a match until a longer one comes,
and what it finds: of the matches of greatest size, the first. The same for a loop over
the elements of a list, and which changes of the list leave the choice as it is.
-/

namespace LongestMatch

/-- `n` has the property, none that has it is larger, and none before `n` is as large. -/
structure FirstLongest (hits : Nat → Prop) (size : Nat → Nat) (n : Nat) : Prop where
  hit : hits n
  longest : ∀ m, hits m → size m ≤ size n
  first : ∀ m, hits m → size m = size n → n ≤ m

theorem FirstLongest.unique {hits : Nat → Prop} {size : Nat → Nat} {n n' : Nat}
    (h : FirstLongest hits size n) (h' : FirstLongest hits size n') : n = n' := by
  have hsize : size n = size n' := by
    apply Nat.le_antisymm
    · exact h'.longest n h.hit
    · exact h.longest n' h'.hit
  apply Nat.le_antisymm
  · exact h.first n' h'.hit hsize.symm
  · exact h'.first n h.hit hsize

theorem FirstLongest.congr {hits hits' : Nat → Prop} {size : Nat → Nat} {n : Nat}
    (h : FirstLongest hits size n) (hn : hits' n) (hsub : ∀ m, hits' m → hits m) :
    FirstLongest hits' size n where
  hit := hn
  longest m hm := h.longest m (hsub m hm)
  first m hm := h.first m (hsub m hm)

def better (hits : Nat → Bool) (size : Nat → Nat) (best : Option Nat) (n : Nat) : Option Nat :=
  if hits n then
    match best with
    | none => some n
    | some b => if size n > size b then some n else some b
  else best

def search (hits : Nat → Bool) (size : Nat → Nat) (bound : Nat) : Option Nat :=
  (List.range bound).foldl (better hits size) none

variable {hits : Nat → Bool} {size : Nat → Nat} {bound : Nat}

theorem search_succ :
    search hits size (bound + 1) = better hits size (search hits size bound) bound := by
  simp [search, List.range_succ]

theorem search_none (h : search hits size bound = none) :
    ∀ n < bound, hits n = false := by
  induction bound with
  | zero =>
      intro n hn
      omega
  | succ bound ih =>
      rw [search_succ] at h
      unfold better at h
      intro n hn
      by_cases hlast : hits bound = true
      · rw [if_pos hlast] at h
        split at h
        · cases h
        · split at h <;> cases h
      · rw [if_neg hlast] at h
        by_cases hnb : n = bound
        · rw [hnb]
          simpa using hlast
        · exact ih h n (by omega)

theorem FirstLongest.last (hlast : hits bound = true)
    (hlonger : ∀ m < bound, hits m = true → size m < size bound) :
    FirstLongest (fun m => m < bound + 1 ∧ hits m = true) size bound where
  hit := ⟨Nat.lt_succ_self bound, hlast⟩
  longest m hm := by
    by_cases hmb : m = bound
    · rw [hmb]
    · exact (hlonger m (by omega) hm.2).le
  first m hm heq := by
    by_contra hlt
    have hless := hlonger m (by omega) hm.2
    omega

theorem FirstLongest.snoc {n : Nat} (h : FirstLongest (fun m => m < bound ∧ hits m = true) size n)
    (hlast : hits bound = true → size bound ≤ size n) :
    FirstLongest (fun m => m < bound + 1 ∧ hits m = true) size n where
  hit := ⟨Nat.lt_succ_of_lt h.hit.1, h.hit.2⟩
  longest m hm := by
    by_cases hmb : m = bound
    · rw [hmb] at hm ⊢
      exact hlast hm.2
    · exact h.longest m ⟨by omega, hm.2⟩
  first m hm heq := by
    by_cases hmb : m = bound
    · have hlt := h.hit.1
      omega
    · exact h.first m ⟨by omega, hm.2⟩ heq

theorem search_some {n : Nat} (h : search hits size bound = some n) :
    FirstLongest (fun m => m < bound ∧ hits m = true) size n := by
  induction bound generalizing n with
  | zero => cases h
  | succ bound ih =>
      rw [search_succ] at h
      unfold better at h
      by_cases hlast : hits bound = true
      · rw [if_pos hlast] at h
        cases hbest : search hits size bound with
        | none =>
            rw [hbest] at h
            cases h
            apply FirstLongest.last hlast
            intro m hm hhit
            rw [search_none hbest m hm] at hhit
            cases hhit
        | some b =>
            have hb := ih hbest
            rw [hbest] at h
            simp only at h
            split at h
            · rename_i hlonger
              cases h
              apply FirstLongest.last hlast
              intro m hm hhit
              exact (hb.longest m ⟨hm, hhit⟩).trans_lt hlonger
            · rename_i hshorter
              cases h
              apply hb.snoc
              intro _
              omega
      · rw [if_neg hlast] at h
        apply (ih h).snoc
        intro hhit
        exact absurd hhit hlast

theorem exists_firstLongest (hits : Nat → Prop) (size : Nat → Nat) {bound : Nat}
    (hbound : ∀ m, hits m → m < bound) {m : Nat} (hm : hits m) :
    ∃ n, FirstLongest hits size n := by
  classical
  cases hfound : search (fun m => decide (hits m)) size bound with
  | none =>
      have hmiss := search_none hfound m (hbound m hm)
      simp [hm] at hmiss
  | some n =>
      have hn := search_some hfound
      exact ⟨n, hn.congr (by simpa using hn.hit.2) fun k hk => ⟨hbound k hk, by simpa using hk⟩⟩

theorem search_congr {hits' : Nat → Bool} {size' : Nat → Nat}
    (hhits : ∀ n < bound, hits n = hits' n) (hsize : ∀ n < bound, size n = size' n) :
    search hits size bound = search hits' size' bound := by
  induction bound with
  | zero => rfl
  | succ bound ih =>
      have hbelow : search hits size bound = search hits' size' bound := by
        apply ih
        · intro n hn
          exact hhits n (Nat.lt_succ_of_lt hn)
        · intro n hn
          exact hsize n (Nat.lt_succ_of_lt hn)
      rw [search_succ, search_succ, hbelow]
      unfold better
      rw [hhits bound (Nat.lt_succ_self bound), hsize bound (Nat.lt_succ_self bound)]
      cases hbest : search hits' size' bound with
      | none => rfl
      | some b =>
          have hb : b < bound + 1 := Nat.lt_succ_of_lt (search_some hbest).hit.1
          simp only [hsize b hb]

/-! ## Lists -/

section

variable {α : Type*}

def HitAt (hits : α → Prop) (l : List α) (n : Nat) : Prop := ∃ a, l[n]? = some a ∧ hits a

/-- The size of the element at a place, 0 where there is none. -/
def sizeAt (size : α → Nat) (l : List α) (n : Nat) : Nat := l[n]?.elim 0 size

/-- One step of the loop over a list; the best match so far comes with its place. -/
def improve (hits : α → Bool) (size : α → Nat) (best : Option (α × Nat)) (a : α × Nat) :
    Option (α × Nat) :=
  if hits a.1 then
    match best with
    | none => some a
    | some b => if size a.1 > size b.1 then some a else some b
  else best

def choose (hits : α → Bool) (size : α → Nat) (l : List α) : Option (α × Nat) :=
  l.zipIdx.foldl (improve hits size) none

variable {hits : α → Bool} {size : α → Nat} {l : List α}

theorem choose_snoc (a : α) :
    choose hits size (l ++ [a]) = improve hits size (choose hits size l) (a, l.length) := by
  simp [choose, List.zipIdx_append]

theorem choose_eq_search :
    choose hits size l =
      (search (fun n => l[n]?.any hits) (sizeAt size l) l.length).bind fun n =>
        l[n]?.map fun a => (a, n) := by
  induction l using List.reverseRecOn with
  | nil => rfl
  | append_singleton l a ih =>
      have hbelow : search (fun n => (l ++ [a])[n]?.any hits) (sizeAt size (l ++ [a])) l.length =
          search (fun n => l[n]?.any hits) (sizeAt size l) l.length := by
        apply search_congr
        · intro n hn
          rw [List.getElem?_append_left hn]
        · intro n hn
          unfold sizeAt
          rw [List.getElem?_append_left hn]
      have hlast : (l ++ [a])[l.length]? = some a := List.getElem?_concat_length
      rw [choose_snoc, ih, List.length_append, List.length_singleton, search_succ, hbelow]
      unfold improve better
      simp only [hlast, Option.any_some]
      cases hbest : search (fun n => l[n]?.any hits) (sizeAt size l) l.length with
      | none => split <;> simp
      | some b =>
          have hb : b < l.length := (search_some hbest).hit.1
          have hsizes : sizeAt size (l ++ [a]) l.length = size a ∧
              sizeAt size (l ++ [a]) b = size l[b] := by
            simp [sizeAt, List.getElem?_append_left hb, List.getElem?_eq_getElem hb]
          simp only [Option.bind_some, List.getElem?_eq_getElem hb, Option.map_some]
          rw [hsizes.1, hsizes.2]
          split
          · split
            · simp
            · simp [List.getElem?_append_left hb, List.getElem?_eq_getElem hb]
          · simp [List.getElem?_append_left hb, List.getElem?_eq_getElem hb]

theorem hitAt_iff {n : Nat} :
    (n < l.length ∧ l[n]?.any hits = true) ↔ HitAt (fun a => hits a = true) l n := by
  constructor
  · intro h
    exact ⟨l[n], List.getElem?_eq_getElem h.1, by simpa [List.getElem?_eq_getElem h.1] using h.2⟩
  · intro h
    obtain ⟨a, ha, hhit⟩ := h
    have hn : n < l.length := (List.getElem?_eq_some_iff.mp ha).1
    exact ⟨hn, by simpa [ha] using hhit⟩

theorem choose_some {a : α} {n : Nat} (h : choose hits size l = some (a, n)) :
    l[n]? = some a ∧ FirstLongest (HitAt (fun a => hits a = true) l) (sizeAt size l) n := by
  rw [choose_eq_search] at h
  cases hbest : search (fun n => l[n]?.any hits) (sizeAt size l) l.length with
  | none =>
      rw [hbest] at h
      cases h
  | some b =>
      have hb := search_some hbest
      simp only [hitAt_iff] at hb
      have hlt : b < l.length := (search_some hbest).hit.1
      rw [hbest, Option.bind_some, List.getElem?_eq_getElem hlt, Option.map_some] at h
      cases h
      exact ⟨List.getElem?_eq_getElem hlt, hb⟩

theorem choose_eq_none_iff : choose hits size l = none ↔ ∀ a ∈ l, hits a = false := by
  constructor
  · intro h a ha
    rw [choose_eq_search] at h
    obtain ⟨n, hn, rfl⟩ := List.mem_iff_getElem.mp ha
    cases hbest : search (fun n => l[n]?.any hits) (sizeAt size l) l.length with
    | none => simpa [List.getElem?_eq_getElem hn] using search_none hbest n hn
    | some b =>
        have hb : b < l.length := (search_some hbest).hit.1
        simp [hbest, List.getElem?_eq_getElem hb] at h
  · intro h
    cases hbest : choose hits size l with
    | none => rfl
    | some b =>
        obtain ⟨-, hfirst⟩ := choose_some hbest
        obtain ⟨a, ha, hhit⟩ := hfirst.hit
        rw [h a (List.mem_of_getElem? ha)] at hhit
        cases hhit

theorem choose_eq_some_iff {a : α} {n : Nat} :
    choose hits size l = some (a, n) ↔
      l[n]? = some a ∧ FirstLongest (HitAt (fun a => hits a = true) l) (sizeAt size l) n := by
  constructor
  · intro h
    exact choose_some h
  · intro h
    obtain ⟨ha, hn⟩ := h
    cases hbest : choose hits size l with
    | none =>
        obtain ⟨b, hb, hhit⟩ := hn.hit
        rw [choose_eq_none_iff.mp hbest b (List.mem_of_getElem? hb)] at hhit
        cases hhit
    | some c =>
        obtain ⟨hc, hfirst⟩ := choose_some hbest
        have hplace : c.2 = n := hfirst.unique hn
        have helem : c.1 = a := by
          rw [hplace, ha] at hc
          exact (Option.some.inj hc).symm
        rw [← hplace, ← helem]

/-! ## Changes of the list -/

/-- Where the element at place `n` is once another one stands at place `k`. -/
def shifted (k n : Nat) : Nat := if n < k then n else n + 1

theorem shifted_mono {k m n : Nat} (h : m ≤ n) : shifted k m ≤ shifted k n := by
  unfold shifted
  split <;> split <;> omega

theorem getElem_inserted (l r : List α) (a : α) (n : Nat) :
    (l ++ a :: r)[shifted l.length n]? = (l ++ r)[n]? := by
  unfold shifted
  split
  · rename_i hn
    rw [List.getElem?_append_left hn, List.getElem?_append_left hn]
  · rename_i hn
    rw [List.getElem?_append_right (by omega), List.getElem?_append_right (by omega),
      show n + 1 - l.length = (n - l.length) + 1 by omega, List.getElem?_cons_succ]

theorem exists_shifted {k m : Nat} (h : m ≠ k) : ∃ n, m = shifted k n := by
  by_cases hm : m < k
  · exact ⟨m, by simp [shifted, hm]⟩
  · refine ⟨m - 1, ?_⟩
    unfold shifted
    split <;> omega

theorem hitAt_inserted {p : α → Prop} (l r : List α) (a : α) (n : Nat) :
    HitAt p (l ++ a :: r) (shifted l.length n) ↔ HitAt p (l ++ r) n := by
  unfold HitAt
  rw [getElem_inserted]

theorem sizeAt_inserted (l r : List α) (a : α) (n : Nat) :
    sizeAt size (l ++ a :: r) (shifted l.length n) = sizeAt size (l ++ r) n := by
  unfold sizeAt
  rw [getElem_inserted]

theorem FirstLongest.size_le {p : α → Prop} {n : Nat} (h : FirstLongest (HitAt p l) (sizeAt size l) n)
    {b : α} (hb : b ∈ l) (hp : p b) : size b ≤ sizeAt size l n := by
  obtain ⟨m, hm, rfl⟩ := List.mem_iff_getElem.mp hb
  have hle := h.longest m ⟨_, List.getElem?_eq_getElem hm, hp⟩
  simpa [sizeAt, List.getElem?_eq_getElem hm] using hle

/-- An element that cannot win moves the first longest match, or leaves it where it is. -/
theorem FirstLongest.insert {p : α → Prop} {l r : List α} {a : α} {n : Nat}
    (h : FirstLongest (HitAt p (l ++ r)) (sizeAt size (l ++ r)) n)
    (hshort : p a → size a < sizeAt size (l ++ r) n) :
    FirstLongest (HitAt p (l ++ a :: r)) (sizeAt size (l ++ a :: r)) (shifted l.length n) := by
  have hnew : (l ++ a :: r)[l.length]? = some a := by simp
  have hnewsize : sizeAt size (l ++ a :: r) l.length = size a := by simp [sizeAt]
  have hnewhit : HitAt p (l ++ a :: r) l.length → size a < sizeAt size (l ++ r) n := by
    intro hat
    obtain ⟨c, hc, hp⟩ := hat
    rw [hnew] at hc
    cases hc
    exact hshort hp
  constructor
  · exact (hitAt_inserted l r a n).mpr h.hit
  · intro m hm
    rw [sizeAt_inserted]
    by_cases hmk : m = l.length
    · rw [hmk] at hm ⊢
      rw [hnewsize]
      exact (hnewhit hm).le
    · obtain ⟨k, rfl⟩ := exists_shifted hmk
      rw [sizeAt_inserted]
      exact h.longest k ((hitAt_inserted l r a k).mp hm)
  · intro m hm heq
    rw [sizeAt_inserted] at heq
    by_cases hmk : m = l.length
    · rw [hmk] at hm heq
      rw [hnewsize] at heq
      exact absurd heq (hnewhit hm).ne
    · obtain ⟨k, rfl⟩ := exists_shifted hmk
      rw [sizeAt_inserted] at heq
      exact shifted_mono (h.first k ((hitAt_inserted l r a k).mp hm) heq)

/-- An element that does not match, or is shorter than a match, is never chosen, wherever
it stands. -/
theorem choose_insert (l r : List α) (a : α)
    (h : hits a = true → ∃ b ∈ l ++ r, hits b = true ∧ size a < size b) :
    choose hits size (l ++ a :: r) =
      (choose hits size (l ++ r)).map fun b => (b.1, shifted l.length b.2) := by
  cases hbest : choose hits size (l ++ r) with
  | none =>
      have hmiss := choose_eq_none_iff.mp hbest
      have hnew : hits a = false := by
        by_contra hhit
        obtain ⟨c, hc, hchit, -⟩ := h (by simpa using hhit)
        rw [hmiss c hc] at hchit
        cases hchit
      rw [Option.map_none]
      apply choose_eq_none_iff.mpr
      intro b hb
      rw [List.mem_append, List.mem_cons] at hb
      rcases hb with hl | rfl | hr
      · exact hmiss b (List.mem_append_left r hl)
      · exact hnew
      · exact hmiss b (List.mem_append_right l hr)
  | some b =>
      obtain ⟨hb, hfirst⟩ := choose_some hbest
      rw [Option.map_some]
      apply choose_eq_some_iff.mpr
      constructor
      · rw [getElem_inserted]
        exact hb
      · apply hfirst.insert
        intro hhit
        obtain ⟨c, hc, hchit, hlt⟩ := h hhit
        exact hlt.trans_le (hfirst.size_le hc hchit)

/-- What is chosen is the first match of its size, and no match is longer. -/
theorem first_of_choose {a : α} {n : Nat} (h : choose hits size l = some (a, n)) :
    (∀ b ∈ l, hits b = true → size b ≤ size a) ∧
      l.find? (fun b => hits b && decide (size b = size a)) = some a := by
  obtain ⟨ha, hfirst⟩ := choose_some h
  have hn : n < l.length := (List.getElem?_eq_some_iff.mp ha).1
  have hsize : sizeAt size l n = size a := by
    simp [sizeAt, ha]
  constructor
  · intro b hb hhit
    rw [← hsize]
    exact hfirst.size_le hb hhit
  · obtain ⟨c, hc, hhit⟩ := hfirst.hit
    rw [ha] at hc
    cases hc
    apply List.find?_eq_some_iff_getElem.mpr
    refine ⟨by simpa using hhit, n, hn, (List.getElem?_eq_some_iff.mp ha).2, ?_⟩
    intro m hmn
    have hm : m < l.length := hmn.trans hn
    by_contra hboth
    simp only [Bool.not_eq_true', Bool.not_eq_false, Bool.and_eq_true, decide_eq_true_eq] at hboth
    have hmsize : sizeAt size l m = size l[m] := by
      simp [sizeAt, List.getElem?_eq_getElem hm]
    have hle := hfirst.first m ⟨_, List.getElem?_eq_getElem hm, hboth.1⟩
      (by rw [hmsize, hsize, hboth.2])
    omega

/-- Where two lists agree on the first match of every size, a match of the one is as long
as some match of the other. -/
theorem exists_hit_of_agree {l' : List α}
    (h : ∀ s, l.find? (fun b => hits b && decide (size b = s)) =
      l'.find? fun b => hits b && decide (size b = s))
    {b : α} (hb : b ∈ l') (hhit : hits b = true) :
    ∃ c ∈ l, hits c = true ∧ size c = size b := by
  have hsome : (l'.find? fun c => hits c && decide (size c = size b)).isSome := by
    rw [List.find?_isSome]
    exact ⟨b, hb, by simpa using hhit⟩
  rw [← h] at hsome
  obtain ⟨c, hc⟩ := Option.isSome_iff_exists.mp hsome
  have hprop := List.find?_some hc
  simp only [Bool.and_eq_true, decide_eq_true_eq] at hprop
  exact ⟨c, List.mem_of_find?_eq_some hc, hprop⟩

theorem choose_none_of_agree {l' : List α}
    (h : ∀ s, l.find? (fun b => hits b && decide (size b = s)) =
      l'.find? fun b => hits b && decide (size b = s))
    (hnone : choose hits size l = none) : choose hits size l' = none := by
  apply choose_eq_none_iff.mpr
  intro b hb
  by_contra hhit
  obtain ⟨c, hc, hchit, -⟩ := exists_hit_of_agree h hb (by simpa using hhit)
  rw [choose_eq_none_iff.mp hnone c hc] at hchit
  cases hchit

/-- Lists that agree on the first match of every size agree on what is chosen. -/
theorem choose_fst_congr {l' : List α}
    (h : ∀ s, l.find? (fun b => hits b && decide (size b = s)) =
      l'.find? fun b => hits b && decide (size b = s)) :
    (choose hits size l).map Prod.fst = (choose hits size l').map Prod.fst := by
  have hback : ∀ s, l'.find? (fun b => hits b && decide (size b = s)) =
      l.find? fun b => hits b && decide (size b = s) := by
    intro s
    exact (h s).symm
  cases hbest : choose hits size l with
  | none => rw [choose_none_of_agree h hbest]
  | some b =>
      cases hbest' : choose hits size l' with
      | none =>
          rw [choose_none_of_agree hback hbest'] at hbest
          cases hbest
      | some b' =>
          obtain ⟨hlongest, hfirst⟩ := first_of_choose hbest
          obtain ⟨hlongest', hfirst'⟩ := first_of_choose hbest'
          have hprop := List.find?_some hfirst
          have hprop' := List.find?_some hfirst'
          simp only [Bool.and_eq_true] at hprop hprop'
          obtain ⟨c, hc, hchit, hcsize⟩ :=
            exists_hit_of_agree h (List.mem_of_find?_eq_some hfirst') hprop'.1
          obtain ⟨d, hd, hdhit, hdsize⟩ :=
            exists_hit_of_agree hback (List.mem_of_find?_eq_some hfirst) hprop.1
          have hle := hlongest c hc hchit
          have hle' := hlongest' d hd hdhit
          have hsame : size b.1 = size b'.1 := by omega
          rw [h, hsame, hfirst'] at hfirst
          rw [Option.map_some, Option.map_some]
          exact hfirst.symm

/-- Without ties between different elements the order of the list does not matter. -/
theorem choose_fst_perm {l' : List α} (hperm : l'.Perm l)
    (hties : ∀ a ∈ l, ∀ b ∈ l, hits a = true → hits b = true → size a = size b → a = b) :
    (choose hits size l').map Prod.fst = (choose hits size l).map Prod.fst := by
  apply choose_fst_congr
  intro s
  cases hfirst : l.find? fun b => hits b && decide (size b = s) with
  | none =>
      rw [List.find?_eq_none] at hfirst ⊢
      intro b hb
      exact hfirst b (hperm.mem_iff.mp hb)
  | some a =>
      have ha := List.find?_some hfirst
      have hmem := List.mem_of_find?_eq_some hfirst
      have hsome : (l'.find? fun b => hits b && decide (size b = s)).isSome := by
        rw [List.find?_isSome]
        exact ⟨a, hperm.mem_iff.mpr hmem, ha⟩
      obtain ⟨b, hfirst'⟩ := Option.isSome_iff_exists.mp hsome
      have hb := List.find?_some hfirst'
      have hmem' := hperm.mem_iff.mp (List.mem_of_find?_eq_some hfirst')
      simp only [Bool.and_eq_true, decide_eq_true_eq] at ha hb
      rw [hfirst', hties b hmem' a hmem hb.1 ha.1 (hb.2.trans ha.2.symm)]

end

end LongestMatch
