import Mathlib

/-! # Doubly linked lists in a heap of nodes

A heap is a partial function from addresses to nodes; the null address is `0`. A
node type says how its two links are read and written (`Linked`). `Seg` is the
usual doubly linked segment: from the first address, whose back link is `pre`,
through the listed addresses, to the last address and its forward link. `Chain`
is the closed list hanging from a head pointer.
-/

namespace DList

/-- Link fields of a node, with the read-over-write laws of a record. -/
class Linked (ν : Type) where
  next : ν → Nat
  prev : ν → Nat
  setNext : Nat → ν → ν
  setPrev : Nat → ν → ν
  next_setNext : ∀ a v, next (setNext a v) = a
  next_setPrev : ∀ a v, next (setPrev a v) = next v
  prev_setNext : ∀ a v, prev (setNext a v) = prev v
  prev_setPrev : ∀ a v, prev (setPrev a v) = a

open Linked

attribute [simp] next_setNext next_setPrev prev_setNext prev_setPrev

/-- Function update at one address. -/
def put {β : Type} (f : Nat → β) (a : Nat) (v : β) : Nat → β := fun x => if x = a then v else f x

@[simp] theorem put_same {β : Type} (f : Nat → β) (a : Nat) (v : β) : put f a v a = v := by
  simp [put]

theorem put_other {β : Type} (f : Nat → β) {a x : Nat} (v : β) (h : x ≠ a) : put f a v x = f x := by
  simp [put, h]

theorem put_self {β : Type} (f : Nat → β) (a : Nat) : put f a (f a) = f := by
  funext x
  by_cases h : x = a <;> simp [put, h]

theorem put_put {β : Type} (f : Nat → β) (a : Nat) (v w : β) : put (put f a v) a w = put f a w := by
  funext x
  by_cases h : x = a <;> simp [put, h]

theorem sum_map_put {l : List Nat} (hnd : l.Nodup) {a : Nat} (ha : a ∈ l) (f : Nat → Nat) (v : Nat) :
    (l.map (put f a v)).sum + f a = (l.map f).sum + v := by
  induction l with
  | nil => simp at ha
  | cons b l ih =>
      obtain ⟨hb, hnd⟩ := List.nodup_cons.mp hnd
      simp only [List.map_cons, List.sum_cons]
      by_cases hab : a = b
      · subst hab
        have hsame : l.map (put f a v) = l.map f :=
          List.map_congr_left fun x hx => put_other _ _ (fun e => hb (e ▸ hx))
        rw [hsame, put_same]
        omega
      · have hrest := ih hnd ((List.mem_cons.mp ha).resolve_left hab)
        rw [put_other _ _ (Ne.symm hab)]
        omega

variable {ν : Type} [Linked ν]

/-- `Seg h pre cur l last nxt`: starting at `cur`, whose back link is `pre`, the
nodes `l` are linked forwards and backwards; `last` is the final node and `nxt`
its forward link. The empty segment has `last = pre` and `nxt = cur`. -/
def Seg (h : Nat → Option ν) : Nat → Nat → List Nat → Nat → Nat → Prop
  | pre, cur, [], last, nxt => last = pre ∧ nxt = cur
  | pre, cur, a :: l, last, nxt =>
      cur = a ∧ a ≠ 0 ∧ ∃ v, h a = some v ∧ prev v = pre ∧ Seg h a (next v) l last nxt

/-- The list `l` hangs from the head pointer `head`. -/
def Chain (h : Nat → Option ν) (head : Nat) (l : List Nat) : Prop := ∃ last, Seg h 0 head l last 0

theorem Seg.append {h : Nat → Option ν} {pre cur last nxt : Nat} {l₁ l₂ : List Nat} :
    Seg h pre cur (l₁ ++ l₂) last nxt ↔
      ∃ mid n, Seg h pre cur l₁ mid n ∧ Seg h mid n l₂ last nxt := by
  induction l₁ generalizing pre cur with
  | nil =>
      constructor
      · intro hs
        exact ⟨pre, cur, ⟨rfl, rfl⟩, hs⟩
      · rintro ⟨mid, n, ⟨rfl, rfl⟩, hs⟩
        exact hs
  | cons a l ih =>
      simp only [List.cons_append, Seg, ih]
      constructor
      · rintro ⟨hc, h0, v, hv, hp, mid, n, h₁, h₂⟩
        exact ⟨mid, n, ⟨hc, h0, v, hv, hp, h₁⟩, h₂⟩
      · rintro ⟨mid, n, ⟨hc, h0, v, hv, hp, h₁⟩, h₂⟩
        exact ⟨hc, h0, v, hv, hp, mid, n, h₁, h₂⟩

theorem Seg.node {h : Nat → Option ν} {pre cur last nxt : Nat} {l : List Nat}
    (hs : Seg h pre cur l last nxt) {a : Nat} (ha : a ∈ l) : a ≠ 0 ∧ ∃ v, h a = some v := by
  induction l generalizing pre cur with
  | nil => simp at ha
  | cons b l ih =>
      obtain ⟨-, h0, v, hv, -, hrest⟩ := hs
      rcases List.mem_cons.mp ha with rfl | ha
      · exact ⟨h0, v, hv⟩
      · exact ih hrest ha

theorem Seg.congr {h h' : Nat → Option ν} {pre cur last nxt : Nat} {l : List Nat}
    (hs : Seg h pre cur l last nxt)
    (hsame : ∀ a ∈ l, ∀ v, h a = some v → ∃ v', h' a = some v' ∧ next v' = next v ∧ prev v' = prev v) :
    Seg h' pre cur l last nxt := by
  induction l generalizing pre cur with
  | nil => exact hs
  | cons a l ih =>
      obtain ⟨hc, h0, v, hv, hp, hrest⟩ := hs
      obtain ⟨v', hv', hn', hp'⟩ := hsame a (by simp) v hv
      refine ⟨hc, h0, v', hv', hp'.trans hp, ?_⟩
      rw [hn']
      exact ih hrest (fun b hb => hsame b (by simp [hb]))

theorem Seg.last_mem {h : Nat → Option ν} {pre cur last nxt : Nat} {l : List Nat}
    (hs : Seg h pre cur l last nxt) (hne : l ≠ []) : last ∈ l := by
  induction l generalizing pre cur with
  | nil => exact absurd rfl hne
  | cons a l ih =>
      obtain ⟨-, -, v, -, -, hrest⟩ := hs
      cases l with
      | nil => simp [hrest.1]
      | cons b l => exact List.mem_cons_of_mem _ (ih hrest (by simp))

theorem Seg.put_outside {h : Nat → Option ν} {pre cur last nxt : Nat} {l : List Nat}
    (hs : Seg h pre cur l last nxt) {b : Nat} (hb : b ∉ l) (w : Option ν) :
    Seg (put h b w) pre cur l last nxt := by
  refine hs.congr fun a ha v hv => ⟨v, ?_, rfl, rfl⟩
  have hab : a ≠ b := fun e => hb (e ▸ ha)
  rw [put_other _ _ hab, hv]

/-- Rewriting a node without touching its links leaves every segment alone. -/
theorem Seg.put_links {h : Nat → Option ν} {pre cur last nxt : Nat} {l : List Nat}
    (hs : Seg h pre cur l last nxt) {b : Nat} {v v' : ν} (hv : h b = some v)
    (hn : next v' = next v) (hp : prev v' = prev v) : Seg (put h b (some v')) pre cur l last nxt := by
  refine hs.congr fun a ha u hu => ?_
  by_cases hab : a = b
  · subst hab
    rw [hv] at hu
    cases hu
    exact ⟨v', by simp, hn, hp⟩
  · exact ⟨u, by rw [put_other _ _ hab, hu], rfl, rfl⟩

theorem Seg.set_last {h : Nat → Option ν} {pre cur last nxt : Nat} {l : List Nat}
    (hs : Seg h pre cur l last nxt) (hne : l ≠ []) (hnd : l.Nodup) (n : Nat) {v : ν}
    (hv : h last = some v) : Seg (put h last (some (setNext n v))) pre cur l last n := by
  induction l generalizing pre cur with
  | nil => exact absurd rfl hne
  | cons a l ih =>
      obtain ⟨hc, h0, u, hu, hp, hrest⟩ := hs
      obtain ⟨hal, hnd⟩ := List.nodup_cons.mp hnd
      cases l with
      | nil =>
          obtain ⟨rfl, -⟩ := hrest
          rw [hu] at hv
          cases hv
          exact ⟨hc, h0, setNext n v, by simp, by simpa using hp, rfl, by simp⟩
      | cons b l =>
          have hlast : a ≠ last := fun e => hal (e ▸ hrest.last_mem (by simp))
          exact ⟨hc, h0, u, by rw [put_other _ _ hlast, hu], hp, ih hrest (by simp) hnd⟩

theorem Seg.set_first {h : Nat → Option ν} {pre a last nxt : Nat} {l : List Nat}
    (hs : Seg h pre a (a :: l) last nxt) (hnd : (a :: l).Nodup) (p : Nat) {v : ν}
    (hv : h a = some v) : Seg (put h a (some (setPrev p v))) p a (a :: l) last nxt := by
  obtain ⟨-, h0, u, hu, -, hrest⟩ := hs
  rw [hv] at hu
  cases hu
  refine ⟨rfl, h0, setPrev p v, by simp, by simp, ?_⟩
  rw [next_setPrev]
  exact hrest.put_outside (List.nodup_cons.mp hnd).1 _

theorem Chain.head_eq {h : Nat → Option ν} {head : Nat} {l : List Nat} (hc : Chain h head l) :
    head = l.headD 0 := by
  obtain ⟨last, hs⟩ := hc
  cases l with
  | nil => exact hs.2.symm
  | cons a l => exact hs.1

/-! ## Front insertion and removal

Both follow the usual pointer code; `none` stands for a dereferenced address
that holds no node.
-/

/-- Link node `a` in front of `head`; the new head is `a`. -/
def link (h : Nat → Option ν) (head a : Nat) : Option (Nat → Option ν) := do
  let v ← h a
  let h := put h a (some (setNext head (setPrev 0 v)))
  if head ≠ 0 then
    let w ← h head
    some (put h head (some (setPrev a w)))
  else some h

/-- The predecessor of a node with links `v`, or else the head pointer, skips it. -/
def skipForward (h : Nat → Option ν) (head : Nat) (v : ν) : Option ((Nat → Option ν) × Nat) :=
  if prev v ≠ 0 then
    (h (prev v)).map fun w => (put h (prev v) (some (setNext (next v) w)), head)
  else some (h, next v)

/-- The successor of a node with links `v`, if any, skips it. -/
def skipBackward (h : Nat → Option ν) (v : ν) : Option (Nat → Option ν) :=
  if next v ≠ 0 then (h (next v)).map fun w => put h (next v) (some (setPrev (prev v) w))
  else some h

/-- Bypass node `a`; returns the heap and the new head. -/
def unlink (h : Nat → Option ν) (head a : Nat) : Option ((Nat → Option ν) × Nat) := do
  let v ← h a
  let (h, head) ← skipForward h head v
  let h ← skipBackward h v
  some (h, head)

/-- `h'` differs from `h` only in the links of the nodes `l`. -/
structure Relinked (h h' : Nat → Option ν) (l : List Nat) : Prop where
  outside : ∀ x, x ∉ l → h' x = h x
  data : ∀ {δ : Type} (d : ν → δ), (∀ a v, d (setNext a v) = d v) → (∀ a v, d (setPrev a v) = d v) →
    ∀ x, (h' x).map d = (h x).map d

theorem Relinked.refl (h : Nat → Option ν) (l : List Nat) : Relinked h h l :=
  ⟨fun _ _ => rfl, fun _ _ _ _ => rfl⟩

theorem Relinked.trans {h₁ h₂ h₃ : Nat → Option ν} {l : List Nat} (h₁₂ : Relinked h₁ h₂ l)
    (h₂₃ : Relinked h₂ h₃ l) : Relinked h₁ h₃ l :=
  ⟨fun x hx => (h₂₃.outside x hx).trans (h₁₂.outside x hx),
    fun d hn hp x => (h₂₃.data d hn hp x).trans (h₁₂.data d hn hp x)⟩

theorem Relinked.setNext {h : Nat → Option ν} {l : List Nat} {a n : Nat} {v : ν} (ha : a ∈ l)
    (hv : h a = some v) : Relinked h (put h a (some (setNext n v))) l := by
  refine ⟨fun x hx => put_other _ _ (fun e => hx (e ▸ ha)), fun d hn _ x => ?_⟩
  by_cases hx : x = a
  · subst hx; simp [hv, hn]
  · rw [put_other _ _ hx]

theorem Relinked.setPrev {h : Nat → Option ν} {l : List Nat} {a p : Nat} {v : ν} (ha : a ∈ l)
    (hv : h a = some v) : Relinked h (put h a (some (setPrev p v))) l := by
  refine ⟨fun x hx => put_other _ _ (fun e => hx (e ▸ ha)), fun d _ hp x => ?_⟩
  by_cases hx : x = a
  · subst hx; simp [hv, hp]
  · rw [put_other _ _ hx]

/-- Whatever the heap holds, an insertion that succeeds changes links only. -/
theorem link_relinked {h h' : Nat → Option ν} {head a : Nat} (e : link h head a = some h') :
    ∃ l, Relinked h h' l := by
  refine ⟨[a, head], ?_⟩
  cases hv : h a with
  | none => simp [link, hv] at e
  | some v =>
      have h₁ : Relinked h (put h a (some (Linked.setNext head (Linked.setPrev 0 v)))) [a, head] := by
        rw [← put_put h a (some (Linked.setPrev 0 v))]
        exact (Relinked.setPrev (by simp) hv).trans (Relinked.setNext (by simp) (put_same _ _ _))
      simp only [link, hv, Option.bind_eq_bind, Option.bind_some] at e
      split at e
      · obtain ⟨w, hw, e⟩ := Option.bind_eq_some_iff.mp e
        cases e
        exact h₁.trans (Relinked.setPrev (by simp) hw)
      · cases e
        exact h₁

/-- Whatever the heap holds, a removal that succeeds changes links only. -/
theorem unlink_relinked {h h' : Nat → Option ν} {head head' a : Nat}
    (e : unlink h head a = some (h', head')) : ∃ l, Relinked h h' l := by
  obtain ⟨v, -, e⟩ := Option.bind_eq_some_iff.mp e
  obtain ⟨⟨g, hd⟩, hf, e⟩ := Option.bind_eq_some_iff.mp e
  obtain ⟨k, hb, e⟩ := Option.bind_eq_some_iff.mp e
  cases e
  have h₁ : Relinked h g [Linked.prev v, Linked.next v] := by
    unfold skipForward at hf
    split at hf
    · obtain ⟨w, hw, hf⟩ := Option.map_eq_some_iff.mp hf
      cases hf
      exact Relinked.setNext (by simp) hw
    · cases hf
      exact Relinked.refl _ _
  have h₂ : Relinked g h' [Linked.prev v, Linked.next v] := by
    unfold skipBackward at hb
    split at hb
    · obtain ⟨w, hw, hb⟩ := Option.map_eq_some_iff.mp hb
      cases hb
      exact Relinked.setPrev (by simp) hw
    · cases hb
      exact Relinked.refl _ _
  exact ⟨_, h₁.trans h₂⟩

theorem link_spec {h : Nat → Option ν} {head a : Nat} {l : List Nat} {v : ν}
    (hc : Chain h head l) (hnd : l.Nodup) (ha : a ∉ l) (h0 : a ≠ 0) (hv : h a = some v) :
    ∃ h', link h head a = some h' ∧ Chain h' a (a :: l) ∧ Relinked h h' (a :: l) := by
  have hput : put h a (some (Linked.setNext head (Linked.setPrev 0 v))) =
      put (put h a (some (Linked.setPrev 0 v))) a
        (some (Linked.setNext head (Linked.setPrev 0 v))) := by rw [put_put]
  have hrel : Relinked h (put h a (some (Linked.setNext head (Linked.setPrev 0 v)))) (a :: l) := by
    rw [hput]
    exact (Relinked.setPrev (by simp) hv).trans (Relinked.setNext (by simp) (by simp))
  obtain ⟨last, hs⟩ := hc
  cases l with
  | nil =>
      obtain ⟨-, rfl⟩ := hs
      refine ⟨_, by simp [link, hv], ⟨a, rfl, h0, _, put_same _ _ _, by simp, rfl, by simp⟩, hrel⟩
  | cons b l =>
      obtain ⟨rfl, hb0, w, hw, -, -⟩ := id hs
      have hba : head ≠ a := fun e => ha (by simp [e])
      have hs1 := hs.put_outside ha (some (Linked.setNext head (Linked.setPrev 0 v)))
      have hw1 : put h a (some (Linked.setNext head (Linked.setPrev 0 v))) head = some w := by
        rw [put_other _ _ hba, hw]
      refine ⟨put (put h a (some (Linked.setNext head (Linked.setPrev 0 v)))) head
        (some (Linked.setPrev a w)), ?_, ⟨last, rfl, h0, Linked.setNext head (Linked.setPrev 0 v), ?_, by simp, ?_⟩, ?_⟩
      · simp [link, hv, hb0, hw1]
      · rw [put_other _ _ (Ne.symm hba), put_same]
      · rw [next_setNext]
        exact hs1.set_first hnd a hw1
      · exact hrel.trans (Relinked.setPrev (by simp) hw1)

private theorem skipForward_spec {h : Nat → Option ν} {head a mid last : Nat} {l₁ l₂ : List Nat}
    {v : ν} (h₁ : Seg h 0 head l₁ mid a) (h₂ : Seg h a (next v) l₂ last 0) (hp : prev v = mid)
    (hnd : (l₁ ++ a :: l₂).Nodup) :
    ∃ g hd, skipForward h head v = some (g, hd) ∧ Seg g 0 hd l₁ mid (next v) ∧
      Seg g a (next v) l₂ last 0 ∧ Relinked h g (l₁ ++ l₂) := by
  by_cases hl : l₁ = []
  · subst hl
    obtain ⟨rfl, -⟩ := h₁
    exact ⟨h, next v, by simp [skipForward, hp], ⟨rfl, rfl⟩, h₂, Relinked.refl _ _⟩
  · have hmem : mid ∈ l₁ := h₁.last_mem hl
    obtain ⟨hmid0, w, hw⟩ := h₁.node hmem
    have hnot : mid ∉ l₂ := fun hm =>
      (List.disjoint_of_nodup_append hnd) hmem (List.mem_cons_of_mem _ hm)
    refine ⟨put h mid (some (Linked.setNext (next v) w)), head,
      by simp [skipForward, hp, hmid0, hw], ?_, ?_, ?_⟩
    · exact h₁.set_last hl (List.Nodup.of_append_left hnd) _ hw
    · exact h₂.put_outside hnot _
    · exact Relinked.setNext (by simp [hmem]) hw

private theorem skipBackward_spec {g : Nat → Option ν} {hd a mid last : Nat} {l₁ l₂ : List Nat}
    {v : ν} (h₁ : Seg g 0 hd l₁ mid (next v)) (h₂ : Seg g a (next v) l₂ last 0)
    (hp : prev v = mid) (hnd : (l₁ ++ a :: l₂).Nodup) :
    ∃ g', skipBackward g v = some g' ∧ Chain g' hd (l₁ ++ l₂) ∧ Relinked g g' (l₁ ++ l₂) := by
  cases l₂ with
  | nil =>
      obtain ⟨-, hn⟩ := h₂
      rw [← hn] at h₁
      exact ⟨g, by simp [skipBackward, ← hn], ⟨mid, by simpa using h₁⟩, Relinked.refl _ _⟩
  | cons b l₂ =>
      obtain ⟨hb, hb0, w, hw, -, -⟩ := id h₂
      have hb₁ : b ∉ l₁ := fun hm => (List.disjoint_of_nodup_append hnd) hm (by simp)
      have hnd₂ : (b :: l₂).Nodup := (List.nodup_cons.mp (List.Nodup.of_append_right hnd)).2
      rw [hb] at h₁ h₂
      refine ⟨put g b (some (Linked.setPrev mid w)), by simp [skipBackward, hb, hb0, hw, hp],
        ⟨last, ?_⟩, Relinked.setPrev (by simp) hw⟩
      exact Seg.append.mpr ⟨mid, b, h₁.put_outside hb₁ _, h₂.set_first hnd₂ mid hw⟩

theorem unlink_spec {h : Nat → Option ν} {head a : Nat} {l₁ l₂ : List Nat} {v : ν}
    (hc : Chain h head (l₁ ++ a :: l₂)) (hnd : (l₁ ++ a :: l₂).Nodup) (hv : h a = some v) :
    ∃ h' head', unlink h head a = some (h', head') ∧ Chain h' head' (l₁ ++ l₂) ∧
      Relinked h h' (l₁ ++ l₂) := by
  obtain ⟨last, hs⟩ := hc
  obtain ⟨mid, n, h₁, rfl, -, u, hu, hp, h₂⟩ := Seg.append.mp hs
  rw [hv] at hu
  cases hu
  obtain ⟨g, hd, hf, hg₁, hg₂, hrel⟩ := skipForward_spec h₁ h₂ hp hnd
  obtain ⟨g', hb, hchain, hrel'⟩ := skipBackward_spec hg₁ hg₂ hp hnd
  exact ⟨g', hd, by simp [unlink, hv, hf, hb], hchain, hrel.trans hrel'⟩

end DList
