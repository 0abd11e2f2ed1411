import Mathlib

/-! # Lines read through a buffer

A text is read in pieces. A piece is what the buffer has room for of the line that comes
next, with the end of the line where it fits. A line that fits is one piece; a longer one
is read in several, and nothing tells the later ones from lines.
-/

namespace LineBuffer

variable {α : Type} [DecidableEq α]

/-- What one read stores, and what it leaves. -/
def fgets (nl : α) : Nat → List α → List α × List α
  | 0, s => ([], s)
  | _ + 1, [] => ([], [])
  | room + 1, a :: s =>
      if a = nl then ([a], s) else (a :: (fgets nl room s).1, (fgets nl room s).2)

def piecesFuel (nl : α) (room : Nat) : Nat → List α → List (List α)
  | 0, _ => []
  | _ + 1, [] => []
  | fuel + 1, a :: s =>
      (fgets nl room (a :: s)).1 :: piecesFuel nl room fuel (fgets nl room (a :: s)).2

/-- All the pieces of a text. Each holds something, so the length is enough fuel. -/
def pieces (nl : α) (room : Nat) (s : List α) : List (List α) :=
  piecesFuel nl room s.length s

variable {nl : α} {room : Nat}

/-! ## One read -/

theorem fgets_append (nl : α) (room : Nat) (s : List α) :
    (fgets nl room s).1 ++ (fgets nl room s).2 = s := by
  induction s generalizing room with
  | nil => cases room <;> rfl
  | cons a s ih =>
      cases room with
      | zero => rfl
      | succ room =>
          unfold fgets
          by_cases ha : a = nl
          · rw [if_pos ha]
            rfl
          · rw [if_neg ha]
            exact congrArg (a :: ·) (ih room)

theorem fgets_length_lt (nl : α) (hroom : 0 < room) {s : List α} (hs : s ≠ []) :
    (fgets nl room s).2.length < s.length := by
  have hsplit := congrArg List.length (fgets_append nl room s)
  rw [List.length_append] at hsplit
  have hsome : 0 < (fgets nl room s).1.length := by
    obtain ⟨a, t, rfl⟩ := List.exists_cons_of_ne_nil hs
    obtain ⟨n, rfl⟩ := Nat.exists_eq_add_of_lt hroom
    rw [Nat.zero_add]
    unfold fgets
    by_cases ha : a = nl <;> simp [ha]
  omega

theorem fgets_line {l : List α} (hl : nl ∉ l) (room : Nat) (s : List α) :
    fgets nl room (l ++ nl :: s) = ((l ++ [nl]).take room, (l ++ [nl]).drop room ++ s) := by
  induction l generalizing room with
  | nil =>
      cases room with
      | zero => rfl
      | succ room => simp [fgets]
  | cons a l ih =>
      cases room with
      | zero => simp [fgets]
      | succ room =>
          obtain ⟨ha, hl⟩ := not_or.mp fun h => hl (List.mem_cons.mpr h)
          rw [List.cons_append, fgets, if_neg (Ne.symm ha), ih hl room]
          rfl

theorem fgets_last {l : List α} (hl : nl ∉ l) (room : Nat) :
    fgets nl room l = (l.take room, l.drop room) := by
  induction l generalizing room with
  | nil => cases room <;> simp [fgets]
  | cons a l ih =>
      cases room with
      | zero => rfl
      | succ room =>
          obtain ⟨ha, hl⟩ := not_or.mp fun h => hl (List.mem_cons.mpr h)
          rw [fgets, if_neg (Ne.symm ha), ih hl room]
          rfl

/-! ## All reads -/

theorem piecesFuel_eq (hroom : 0 < room) {fuel : Nat} {s : List α} (h : s.length ≤ fuel) :
    piecesFuel nl room fuel s = pieces nl room s := by
  induction hn : s.length using Nat.strong_induction_on generalizing fuel s with
  | _ n ih =>
      cases s with
      | nil => cases fuel <;> rfl
      | cons a s =>
          cases fuel with
          | zero => exact absurd h (by simp)
          | succ fuel =>
              have hless := fgets_length_lt nl hroom (List.cons_ne_nil a s)
              rw [List.length_cons] at hless h hn
              unfold pieces
              rw [List.length_cons, piecesFuel, piecesFuel,
                ih _ (by omega) (by omega) rfl, ih _ (by omega) (by omega) rfl]

@[simp] theorem pieces_nil : pieces nl room ([] : List α) = [] := rfl

theorem pieces_cons (hroom : 0 < room) {s : List α} (hs : s ≠ []) :
    pieces nl room s = (fgets nl room s).1 :: pieces nl room (fgets nl room s).2 := by
  have hless := fgets_length_lt nl hroom hs
  obtain ⟨a, t, rfl⟩ := List.exists_cons_of_ne_nil hs
  rw [List.length_cons] at hless
  conv_lhs => unfold pieces
  rw [List.length_cons, piecesFuel, piecesFuel_eq hroom (by omega)]

theorem flatten_pieces (hroom : 0 < room) (s : List α) : (pieces nl room s).flatten = s := by
  induction hn : s.length using Nat.strong_induction_on generalizing s with
  | _ n ih =>
      by_cases hs : s = []
      · rw [hs]
        rfl
      · rw [pieces_cons hroom hs, List.flatten_cons,
          ih _ (hn ▸ fgets_length_lt nl hroom hs) _ rfl, fgets_append]

theorem pieces_line (hroom : 0 < room) {l : List α} (hl : nl ∉ l) (s : List α) :
    pieces nl room (l ++ nl :: s) = pieces nl room (l ++ [nl]) ++ pieces nl room s := by
  induction hn : l.length using Nat.strong_induction_on generalizing l with
  | _ n ih =>
      rw [pieces_cons hroom (by simp), pieces_cons (s := l ++ [nl]) hroom (by simp),
        fgets_line hl, fgets_line hl, List.append_nil, List.cons_append]
      congr 1
      by_cases hlong : room ≤ l.length
      · rw [List.drop_append_of_le_length hlong, List.append_assoc, List.singleton_append]
        apply ih (l.drop room).length _ (fun h => hl (List.mem_of_mem_drop h)) rfl
        rw [List.length_drop]
        omega
      · have hend : (l ++ [nl]).drop room = [] := by
          apply List.drop_eq_nil_of_le
          rw [List.length_append, List.length_singleton]
          omega
        rw [hend]
        rfl

theorem pieces_lines (hroom : 0 < room) {lines : List (List α)} (h : ∀ l ∈ lines, nl ∉ l) :
    pieces nl room (lines.flatMap (· ++ [nl])) =
      lines.flatMap fun l => pieces nl room (l ++ [nl]) := by
  induction lines with
  | nil => rfl
  | cons l lines ih =>
      rw [List.flatMap_cons, List.flatMap_cons, List.append_assoc, List.singleton_append,
        pieces_line hroom (h l List.mem_cons_self),
        ih fun l' hl' => h l' (List.mem_cons_of_mem l hl')]

theorem pieces_of_line (hroom : 0 < room) {l : List α} (hl : nl ∉ l) :
    pieces nl room (l ++ [nl]) =
      (l ++ [nl]).take room :: pieces nl room ((l ++ [nl]).drop room) := by
  rw [pieces_cons hroom (by simp), fgets_line hl, List.append_nil]

theorem infix_of_mem_pieces (hroom : 0 < room) {s p : List α} (hp : p ∈ pieces nl room s) :
    p <:+: s := by
  have h := List.infix_of_mem_flatten hp
  rwa [flatten_pieces hroom] at h

/-- A piece begins a line, or it is a part of a line that does not fit. -/
theorem line_of_mem_pieces (hroom : 0 < room) {s p : List α} (hp : p ∈ pieces nl room s) :
    ∃ l ∈ s.splitOn nl, p <+: l ++ [nl] ∨ room ≤ l.length ∧ p <:+: l ++ [nl] := by
  induction hn : s.length using Nat.strong_induction_on generalizing s with
  | _ n ih =>
      by_cases hmem : nl ∈ s
      · obtain ⟨l, t, rfl, hl⟩ := List.eq_append_cons_of_mem hmem
        have hlines : (l ++ nl :: t).splitOn nl = l :: t.splitOn nl := by
          rw [List.splitOn_append_cons_self, List.splitOn_eq_singleton hl]
          rfl
        rw [hlines]
        rw [pieces_line hroom hl, List.mem_append] at hp
        rcases hp with hp | hp
        · apply Exists.intro l
          refine ⟨List.mem_cons_self, ?_⟩
          rw [pieces_of_line hroom hl, List.mem_cons] at hp
          rcases hp with rfl | hp
          · apply Or.inl
            exact List.take_prefix room _
          · have hlater := (infix_of_mem_pieces hroom hp).trans (List.drop_suffix room _).isInfix
            by_cases hlong : room ≤ l.length
            · exact Or.inr ⟨hlong, hlater⟩
            · rw [List.drop_eq_nil_of_le (by simp; omega), pieces_nil] at hp
              exact absurd hp (List.not_mem_nil)
        · rw [List.length_append, List.length_cons] at hn
          obtain ⟨l', hl', h⟩ := ih t.length (by omega) hp rfl
          exact ⟨l', List.mem_cons_of_mem l hl', h⟩
      · rw [List.splitOn_eq_singleton hmem]
        apply Exists.intro s
        refine ⟨List.mem_singleton.mpr rfl, ?_⟩
        have hs : s ≠ [] := by
          rintro rfl
          exact List.not_mem_nil hp
        rw [pieces_cons hroom hs, fgets_last hmem, List.mem_cons] at hp
        rcases hp with rfl | hp
        · apply Or.inl
          have hstart := List.take_prefix room s
          exact hstart.trans (List.prefix_append s _)
        · have hlater := (infix_of_mem_pieces hroom hp).trans (List.drop_suffix room s).isInfix
          by_cases hlong : room ≤ s.length
          · exact Or.inr ⟨hlong, hlater.trans (List.prefix_append s _).isInfix⟩
          · rw [List.drop_eq_nil_of_le (by omega), pieces_nil] at hp
            exact absurd hp (List.not_mem_nil)

end LineBuffer
