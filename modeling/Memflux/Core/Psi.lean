import Memflux.Core.Cycle
import Memflux.Core.Printing

/-! # `/proc/pressure/memory`

`psi_memory` reads the file line by line through a buffer and looks at the ten-second
averages of its two lines, which are given in percent. What `sscanf` makes of a text
that begins with a decimal number is a parameter.
-/

namespace Memflux.Core

open Double LineBuffer

section

variable {F : Type} [Double F]

/-- `sscanf(line, "<name> avg10=%lf", &v10) == 1`; the blank stands for any number of them. -/
def scanAvg10 (scanLf : Bytes → Option F) (name line : Bytes) : Option F :=
  if name <+: line then
    let t := (line.drop name.length).dropWhile isSpace
    if ascii "avg10=" <+: t then scanLf (t.drop 6) else none
  else none

/-- The loop body of `psi_memory`. -/
def psiLine (scanLf : Bytes → Option F) (s : PsiSnapshot F) (line : Bytes) : PsiSnapshot F :=
  match scanAvg10 scanLf (ascii "some") (cstr line) with
  | some v => { s with someAvg10 := div v (ofNat 100), ok := true }
  | none =>
      match scanAvg10 scanLf (ascii "full") (cstr line) with
      | some v => { s with fullAvg10 := div v (ofNat 100), ok := true }
      | none => s

def psiMemory (scanLf : Bytes → Option F) (file : Option Bytes) : PsiSnapshot F :=
  ((file.map (pieces 10 255)).getD []).foldl (psiLine scanLf) {}

/-- A decimal number with a point, up to a blank, is read as its value. -/
def ReadsFixed (scanLf : Bytes → Option F) : Prop :=
  ∀ ds fs rest : Bytes, ds ≠ [] → (∀ d ∈ ds ++ fs, isDigit d = true) →
    scanLf (ds ++ 46 :: (fs ++ 32 :: rest)) = some (dec (decimal (ds ++ fs)) fs.length)

/-- A line of the file; the other averages and the total are its rest. -/
structure PsiLine where
  full : Bool
  whole : Bytes
  part : Bytes
  rest : Bytes
  number : whole ≠ [] ∧ ∀ d ∈ whole ++ part, isDigit d = true
  plain : ∀ b ∈ rest, b ≠ 10 ∧ b ≠ 0
  short : whole.length + part.length + rest.length ≤ 240

namespace PsiLine

def name (l : PsiLine) : Bytes := if l.full then ascii "full" else ascii "some"

def text (l : PsiLine) : Bytes :=
  l.name ++ ascii " avg10=" ++ (l.whole ++ 46 :: (l.part ++ 32 :: l.rest))

def value (l : PsiLine) : F := div (dec (decimal (l.whole ++ l.part)) l.part.length) (ofNat 100)

theorem solid (l : PsiLine) : ∀ b ∈ l.text, b ≠ 10 ∧ b ≠ 0 := by
  have hdigit : ∀ b : UInt8, isDigit b = true → b ≠ 10 ∧ b ≠ 0 := by
    intro b hb
    obtain ⟨hlow, -⟩ := isDigit_range hb
    refine ⟨?_, ?_⟩ <;> rintro rfl <;> simp at hlow
  have hname : ∀ b ∈ l.name ++ ascii " avg10=", b ≠ 10 ∧ b ≠ 0 := by
    unfold name
    cases l.full <;> decide +kernel
  intro b hb
  rcases List.mem_append.mp hb with hb | hb
  · exact hname b hb
  · simp only [List.mem_append, List.mem_cons] at hb
    rcases hb with hb | rfl | hb | rfl | hb
    · exact hdigit b (l.number.2 b (List.mem_append_left _ hb))
    · decide
    · exact hdigit b (l.number.2 b (List.mem_append_right _ hb))
    · decide
    · exact l.plain b hb

theorem pieces_text (l : PsiLine) : pieces 10 255 (l.text ++ [10]) = [l.text ++ [10]] := by
  have hfits : (l.text ++ [10]).length ≤ 255 := by
    have hname : l.name.length = 4 := by
      unfold name
      cases l.full <;> rfl
    have havg : (ascii " avg10=").length = 7 := rfl
    have hshort := l.short
    simp only [text, List.length_append, List.length_cons, List.length_nil, hname, havg]
    omega
  rw [pieces_of_line (by decide) fun h => (l.solid 10 h).1 rfl, List.take_of_length_le hfits,
    List.drop_eq_nil_of_le hfits, pieces_nil]

theorem cstr_text (l : PsiLine) : cstr (l.text ++ [10]) = l.text ++ [10] := by
  unfold cstr
  rw [List.takeWhile_eq_self_iff]
  intro b hb
  rcases List.mem_append.mp hb with hb | hb
  · simpa using (l.solid b hb).2
  · rw [List.mem_singleton.mp hb]
    rfl

/-- The number after the name of the line, and nothing after the other name. -/
theorem scan_text {scanLf : Bytes → Option F} (hscan : ReadsFixed scanLf) (l : PsiLine) :
    scanAvg10 scanLf l.name (l.text ++ [10]) =
      some (dec (decimal (l.whole ++ l.part)) l.part.length) := by
  have hdrop : (l.text ++ [10]).drop l.name.length =
      32 :: (ascii "avg10=" ++ (l.whole ++ 46 :: (l.part ++ 32 :: (l.rest ++ [10])))) := by
    unfold text
    rw [List.append_assoc, List.append_assoc, List.drop_left, List.append_assoc, List.cons_append,
      List.append_assoc, List.cons_append]
    rfl
  have hspace : (32 :: (ascii "avg10=" ++ (l.whole ++ 46 :: (l.part ++ 32 :: (l.rest ++ [10]))))).dropWhile
      isSpace = ascii "avg10=" ++ (l.whole ++ 46 :: (l.part ++ 32 :: (l.rest ++ [10]))) := by
    rfl
  unfold scanAvg10
  dsimp only
  rw [if_pos (by unfold text; simp), hdrop, hspace, if_pos (List.prefix_append _ _)]
  exact hscan _ _ _ l.number.1 l.number.2

theorem not_some {l : PsiLine} (h : l.full = true) : ¬ ascii "some" <+: l.text ++ [10] := by
  unfold text name
  rw [h]
  rintro ⟨t, ht⟩
  cases ht

end PsiLine

theorem psiLine_text {scanLf : Bytes → Option F} (hscan : ReadsFixed scanLf) (s : PsiSnapshot F)
    (l : PsiLine) :
    psiLine scanLf s (l.text ++ [10]) =
      if l.full then { s with fullAvg10 := l.value, ok := true }
      else { s with someAvg10 := l.value, ok := true } := by
  have hown := l.scan_text hscan
  unfold psiLine
  rw [l.cstr_text]
  unfold PsiLine.name at hown
  cases hfull : l.full with
  | false =>
      rw [hfull] at hown
      have hown : scanAvg10 scanLf (ascii "some") (l.text ++ [10]) = _ := hown
      rw [hown]
      rfl
  | true =>
      rw [hfull] at hown
      have hown : scanAvg10 scanLf (ascii "full") (l.text ++ [10]) = _ := hown
      have hnone : scanAvg10 scanLf (ascii "some") (l.text ++ [10]) = none := if_neg (l.not_some hfull)
      rw [hnone, hown]
      rfl

/-- On any lines of the kernel: each average is that of the last line with its name, and
the snapshot is good when there is a line. -/
theorem psi_fields {scanLf : Bytes → Option F} (hscan : ReadsFixed scanLf) (lines : List PsiLine) :
    psiMemory scanLf (some (lines.flatMap fun l => l.text ++ [10])) =
      { someAvg10 := ((lines.filter fun l => !l.full).getLast?).elim zero PsiLine.value
        fullAvg10 := ((lines.filter fun l => l.full).getLast?).elim zero PsiLine.value
        ok := decide (lines ≠ []) } := by
  have htexts : lines.flatMap (fun l => l.text ++ [10]) = (lines.map PsiLine.text).flatMap (· ++ [10]) := by
    rw [List.flatMap_map]
  have hpieces : pieces 10 255 (lines.flatMap fun l => l.text ++ [10]) = lines.map fun l => l.text ++ [10] := by
    rw [htexts, pieces_lines (by decide) fun t ht => ?_, List.flatMap_map, List.map_eq_flatMap]
    · exact List.flatMap_congr fun l _ => l.pieces_text
    · obtain ⟨l, -, rfl⟩ := List.mem_map.mp ht
      exact fun h => (l.solid 10 h).1 rfl
  unfold psiMemory
  rw [Option.map_some, Option.getD_some, hpieces, List.foldl_map]
  simp only [psiLine_text hscan]
  clear htexts hpieces
  induction lines using List.reverseRecOn with
  | nil => rfl
  | append_singleton lines l ih =>
      rw [List.foldl_append, ih, List.foldl_cons, List.foldl_nil, List.filter_append, List.filter_append]
      cases hfull : l.full <;> simp [hfull]

/-- `%lf` on a text that begins with a number without a sign or an exponent. -/
def scanFixed (s : Bytes) : Option F :=
  let ds := s.takeWhile isDigit
  match s.dropWhile isDigit with
  | 46 :: s => some (dec (decimal (ds ++ s.takeWhile isDigit)) (s.takeWhile isDigit).length)
  | _ => if ds = [] then none else some (dec (decimal ds) 0)

theorem scanFixed_reads : ReadsFixed (scanFixed : Bytes → Option F) := by
  intro ds fs rest _ hnumber
  have hds : ∀ d ∈ ds, isDigit d = true := fun d hd => hnumber d (List.mem_append_left _ hd)
  have hfs : ∀ d ∈ fs, isDigit d = true := fun d hd => hnumber d (List.mem_append_right _ hd)
  have htake : (ds ++ 46 :: (fs ++ 32 :: rest)).takeWhile isDigit = ds := by
    rw [List.takeWhile_append_of_pos hds, List.takeWhile_cons_of_neg (by decide), List.append_nil]
  have hdrop : (ds ++ 46 :: (fs ++ 32 :: rest)).dropWhile isDigit = 46 :: (fs ++ 32 :: rest) := by
    rw [List.dropWhile_append_of_pos hds, List.dropWhile_cons_of_neg (by decide)]
  have hpart : (fs ++ 32 :: rest).takeWhile isDigit = fs := by
    rw [List.takeWhile_append_of_pos hfs, List.takeWhile_cons_of_neg (by decide), List.append_nil]
  unfold scanFixed
  dsimp only
  rw [htake, hdrop]
  show some (dec (decimal (ds ++ (fs ++ 32 :: rest).takeWhile isDigit)) _) = _
  rw [hpart]

end

/-- A file with a quarter of the time and more lost to reclaim, and what the guard makes
of it. -/
theorem psi_fields_crisis :
    crisis (psiMemory (scanFixed : Bytes → Option ℚ)
      (some (ascii "some avg10=31.00 avg60=9.00\n" ++ ascii "full avg10=25.00 avg60=2.00\n"))) {} = true := by
  let some : PsiLine := ⟨false, ascii "31", ascii "00", ascii "avg60=9.00",
    by decide +kernel, by decide +kernel, by decide +kernel⟩
  let full : PsiLine := ⟨true, ascii "25", ascii "00", ascii "avg60=2.00",
    by decide +kernel, by decide +kernel, by decide +kernel⟩
  have hfields := psi_fields (scanFixed_reads (F := ℚ)) [some, full]
  have htext : [some, full].flatMap (fun l => l.text ++ [10]) =
      ascii "some avg10=31.00 avg60=9.00\n" ++ ascii "full avg10=25.00 avg60=2.00\n" := by
    decide +kernel
  rw [htext] at hfields
  rw [hfields]
  decide +kernel

end Memflux.Core
