import Memflux.Core.Printing
import Memflux.Core.ProcFiles
import Memflux.Lib.LastWins

/-! # `/proc/meminfo`

`meminfo` reads entries of a key, a number and a unit, one after the other, until one is
not complete; after each it skips one byte. On lines that have all three every field has
the number of the last line with its key. The first line without a unit takes the key of
the line after it for one, and ends the loop there.
-/

namespace Memflux.Core

open LastWins

/-- `kern::MemInfo`. -/
structure MemReport where
  totalKb : Nat := 0
  freeKb : Nat := 0
  availableKb : Nat := 0
  anonKb : Nat := 0
  fileKb : Nat := 0
  slabKb : Nat := 0
  shmemKb : Nat := 0
  swapTotalKb : Nat := 0
  swapFreeKb : Nat := 0
  deriving DecidableEq

/-- The two fields that the engine reads. -/
def MemReport.info (m : MemReport) : MemInfo := ⟨m.totalKb, m.availableKb⟩

/-! ## The reader -/

/-- `%<room>s`, with the text that follows it. -/
def scanToken (room : Nat) (s : Bytes) : Option (Bytes × Bytes) :=
  let t := s.dropWhile isSpace
  let w := (t.take room).takeWhile fun b => !isSpace b
  if w = [] then none else some (w, t.drop w.length)

/-- `%llu`, with the text that follows it. -/
def scanUnsigned (s : Bytes) : Option (Nat × Bytes) :=
  (numeral s).map fun (z, rest) =>
    (if 2 ^ 64 ≤ z ∨ z ≤ -2 ^ 64 then 2 ^ 64 - 1 else castU64 z, rest)

/-- `fscanf(f, "%63s %llu %15s", …) == 3`. -/
def scanFields (s : Bytes) : Option (Bytes × Nat × Bytes) :=
  (scanToken 63 s).bind fun (key, s) =>
    (scanUnsigned s).bind fun (val, s) => (scanToken 15 s).map fun (_, s) => (key, val, s)

/-- The chain of comparisons in `meminfo`. -/
def MemReport.set (m : MemReport) (key : Bytes) (val : Nat) : MemReport :=
  let key := cstr key
  if key = ascii "MemTotal:" then { m with totalKb := val }
  else if key = ascii "MemFree:" then { m with freeKb := val }
  else if key = ascii "MemAvailable:" then { m with availableKb := val }
  else if key = ascii "Anonymous:" then { m with anonKb := val }
  else if key = ascii "Mapped:" then { m with fileKb := val }
  else if key = ascii "Slab:" then { m with slabKb := val }
  else if key = ascii "Shmem:" then { m with shmemKb := val }
  else if key = ascii "SwapTotal:" then { m with swapTotalKb := val }
  else if key = ascii "SwapFree:" then { m with swapFreeKb := val }
  else m

/-- The loop of `meminfo`; `fgetc` skips a byte after each entry. -/
def readEntries : Nat → MemReport → Bytes → MemReport
  | 0, m, _ => m
  | fuel + 1, m, s =>
      match scanFields s with
      | none => m
      | some (key, val, s) =>
          match s with
          | [] => m.set key val
          | _ :: s => readEntries fuel (m.set key val) s

/-- `meminfo`; every entry takes bytes of the text, so its length is enough fuel. -/
def meminfo (file : Option Bytes) : MemReport :=
  match file with
  | none => {}
  | some text => readEntries text.length {} text

/-! ## Scanning -/

theorem scanToken_append {w : Bytes} (hw : ∀ b ∈ w, isSpace b = false) (hsome : w ≠ []) {room : Nat}
    (hroom : w.length ≤ room) {c : UInt8} (hc : isSpace c = true) (s : Bytes) :
    scanToken room (w ++ c :: s) = some (w, c :: s) := by
  have hstart : (w ++ c :: s).dropWhile isSpace = w ++ c :: s := by
    obtain ⟨b, w', rfl⟩ := List.exists_cons_of_ne_nil hsome
    rw [List.cons_append, List.dropWhile_cons_of_neg (by simp [hw b List.mem_cons_self])]
  have hword : ((w ++ c :: s).take room).takeWhile (fun b => !isSpace b) = w := by
    obtain ⟨k, rfl⟩ := Nat.exists_eq_add_of_le hroom
    have hall : ∀ b ∈ w, (fun b => !isSpace b) b = true := fun b hb => by simp [hw b hb]
    rw [List.take_length_add_append]
    cases k with
    | zero => rw [List.take_zero, List.append_nil, List.takeWhile_eq_self_iff.mpr hall]
    | succ k =>
        rw [List.take_succ_cons, List.takeWhile_append_of_pos hall,
          List.takeWhile_cons_of_neg (by simp [hc]), List.append_nil]
  unfold scanToken
  dsimp only
  rw [hstart, hword, if_neg hsome, List.drop_left]

theorem scanUnsigned_append {ds : Bytes} (hds : ∀ d ∈ ds, isDigit d = true) (hsome : ds ≠ [])
    (blanks : Nat) {c : UInt8} (hc : isDigit c = false) (s : Bytes) :
    scanUnsigned (List.replicate blanks 32 ++ (ds ++ c :: s)) =
      some (min (decimal ds) (2 ^ 64 - 1), c :: s) := by
  have hstop : ∀ b ∈ (c :: s).head?, isDigit b = false := fun b hb => by
    rw [← Option.some.inj hb, hc]
  have hnumeral := numeral_append hds hsome blanks hstop
  rw [scanUnsigned, hnumeral, Option.map_some]
  generalize decimal ds = n
  have hvalue : (if (2 ^ 64 : Int) ≤ n ∨ (n : Int) ≤ -2 ^ 64 then 2 ^ 64 - 1 else castU64 n) =
      min n (2 ^ 64 - 1) := by
    unfold castU64
    split <;> omega
  exact congrArg (fun v => some (v, c :: s)) hvalue

/-! ## Lines with a unit -/

def IsWord (room : Nat) (w : Bytes) : Prop :=
  w ≠ [] ∧ w.length ≤ room ∧ ∀ b ∈ w, isSpace b = false

/-- A line of `/proc/meminfo` with its unit. -/
structure MemLine where
  key : Bytes
  blanks : Nat
  digits : Bytes
  unit : Bytes
  keyed : IsWord 63 key
  number : digits ≠ [] ∧ ∀ d ∈ digits, isDigit d = true
  measured : IsWord 15 unit

namespace MemLine

def text (l : MemLine) : Bytes :=
  l.key ++ 32 :: (List.replicate l.blanks 32 ++ (l.digits ++ 32 :: (l.unit ++ [10])))

def value (l : MemLine) : Nat := min (decimal l.digits) (2 ^ 64 - 1)

theorem scanFields_text (l : MemLine) (s : Bytes) :
    scanFields (l.text ++ s) = some (l.key, l.value, 10 :: s) := by
  obtain ⟨hkey, hkroom, hksolid⟩ := l.keyed
  obtain ⟨hsome, hdigits⟩ := l.number
  obtain ⟨hunit, huroom, husolid⟩ := l.measured
  have htext : l.text ++ s = l.key ++ 32 :: (List.replicate l.blanks 32 ++
      (l.digits ++ 32 :: (l.unit ++ 10 :: s))) := by
    simp only [text, List.append_assoc, List.cons_append, List.nil_append]
  have hnumber := scanUnsigned_append hdigits hsome (l.blanks + 1) (c := 32) rfl
    (l.unit ++ 10 :: s)
  rw [List.replicate_succ, List.cons_append] at hnumber
  have hblank : scanToken 15 (32 :: (l.unit ++ 10 :: s)) = some (l.unit, 10 :: s) := by
    have hword := scanToken_append husolid hunit huroom (c := 10) rfl s
    unfold scanToken at hword ⊢
    rwa [List.dropWhile_cons_of_pos (by decide)]
  unfold scanFields
  rw [htext, scanToken_append hksolid hkey hkroom rfl, Option.bind_some]
  dsimp only
  rw [hnumber, Option.bind_some]
  dsimp only
  rw [hblank]
  rfl

end MemLine

theorem readEntries_line (l : MemLine) (fuel : Nat) (m : MemReport) (s : Bytes) :
    readEntries (fuel + 1) m (l.text ++ s) = readEntries fuel (m.set l.key l.value) s := by
  rw [readEntries, l.scanFields_text]

theorem readEntries_lines (lines : List MemLine) (fuel : Nat) (m : MemReport) (s : Bytes) :
    readEntries (lines.length + fuel) m (lines.flatMap MemLine.text ++ s) =
      readEntries fuel (lines.foldl (fun m l => m.set l.key l.value) m) s := by
  induction lines generalizing m with
  | nil => rw [List.length_nil, Nat.zero_add, List.flatMap_nil, List.nil_append, List.foldl_nil]
  | cons l lines ih =>
      have hfuel : (l :: lines).length + fuel = lines.length + fuel + 1 := by
        rw [List.length_cons]
        omega
      rw [hfuel, List.flatMap_cons, List.append_assoc, readEntries_line, ih, List.foldl_cons]

/-! ## The first lines without a unit -/

/-- A line without a unit, such as those of the huge pages. -/
structure BareLine where
  key : Bytes
  blanks : Nat
  digits : Bytes
  keyed : IsWord 63 key
  number : digits.length ≤ 63 ∧ digits ≠ [] ∧ ∀ d ∈ digits, isDigit d = true

namespace BareLine

def text (l : BareLine) : Bytes :=
  l.key ++ 32 :: (List.replicate l.blanks 32 ++ (l.digits ++ [10]))

def value (l : BareLine) : Nat := min (decimal l.digits) (2 ^ 64 - 1)

/-- The key of the second line is taken for the unit of the first, and its number for a key. -/
theorem readEntries_bare (l₁ l₂ : BareLine) (hunit : l₂.key.length ≤ 15) {c : UInt8}
    (hc : isLetter c = true) (fuel : Nat) (m : MemReport) (s : Bytes) :
    readEntries (fuel + 2) m (l₁.text ++ (l₂.text ++ c :: s)) = m.set l₁.key l₁.value := by
  obtain ⟨hkey, hkroom, hksolid⟩ := l₁.keyed
  obtain ⟨hkey₂, -, hksolid₂⟩ := l₂.keyed
  obtain ⟨-, hsome, hdigits⟩ := l₁.number
  obtain ⟨hroom₂, hsome₂, hdigits₂⟩ := l₂.number
  have htext : l₁.text ++ (l₂.text ++ c :: s) = l₁.key ++ 32 :: (List.replicate l₁.blanks 32 ++
      (l₁.digits ++ 10 :: (l₂.key ++ 32 :: (List.replicate l₂.blanks 32 ++
        (l₂.digits ++ 10 :: c :: s))))) := by
    simp only [text, List.append_assoc, List.cons_append, List.nil_append]
  have hnumber := scanUnsigned_append hdigits hsome (l₁.blanks + 1) (c := 10) rfl
    (l₂.key ++ 32 :: (List.replicate l₂.blanks 32 ++ (l₂.digits ++ 10 :: c :: s)))
  rw [List.replicate_succ, List.cons_append] at hnumber
  have hnext : scanToken 15 (10 :: (l₂.key ++ 32 :: (List.replicate l₂.blanks 32 ++
      (l₂.digits ++ 10 :: c :: s)))) =
        some (l₂.key, 32 :: (List.replicate l₂.blanks 32 ++ (l₂.digits ++ 10 :: c :: s))) := by
    have hword := scanToken_append hksolid₂ hkey₂ hunit (c := 32) rfl
      (List.replicate l₂.blanks 32 ++ (l₂.digits ++ 10 :: c :: s))
    unfold scanToken at hword ⊢
    rwa [List.dropWhile_cons_of_pos (by decide)]
  have hfirst : scanFields (l₁.text ++ (l₂.text ++ c :: s)) =
      some (l₁.key, l₁.value, 32 :: (List.replicate l₂.blanks 32 ++ (l₂.digits ++ 10 :: c :: s))) := by
    unfold scanFields
    rw [htext, scanToken_append hksolid hkey hkroom rfl,
      Option.bind_some]
    dsimp only
    rw [hnumber, Option.bind_some]
    dsimp only
    rw [hnext]
    rfl
  have hstuck : scanFields (List.replicate l₂.blanks 32 ++ (l₂.digits ++ 10 :: c :: s)) = none := by
    have hsolid : ∀ d ∈ l₂.digits, isSpace d = false := fun d hd => isSpace_digit (hdigits₂ d hd)
    have hword := scanToken_append hsolid hsome₂ hroom₂ (c := 10) rfl (c :: s)
    have hblank : scanToken 63 (List.replicate l₂.blanks 32 ++ (l₂.digits ++ 10 :: c :: s)) =
        some (l₂.digits, 10 :: c :: s) := by
      unfold scanToken at hword ⊢
      rwa [List.dropWhile_append_of_pos fun b hb => by rw [List.eq_of_mem_replicate hb]; rfl]
    have hnone : numeral (10 :: c :: s) = none := by
      have hletter := numeral_letter hc s
      unfold numeral at hletter ⊢
      rwa [List.dropWhile_cons_of_pos (by decide)]
    unfold scanFields
    rw [hblank, Option.bind_some]
    dsimp only
    rw [scanUnsigned, hnone]
    rfl
  rw [readEntries, hfirst]
  dsimp only
  rw [readEntries, hstuck]

end BareLine

/-! ## Every field -/

inductive MemField where
  | total
  | free
  | available
  | anon
  | file
  | slab
  | shmem
  | swapTotal
  | swapFree
  deriving DecidableEq

/-- The key that `meminfo` compares with for a field. -/
def MemField.key : MemField → Bytes
  | .total => ascii "MemTotal:"
  | .free => ascii "MemFree:"
  | .available => ascii "MemAvailable:"
  | .anon => ascii "Anonymous:"
  | .file => ascii "Mapped:"
  | .slab => ascii "Slab:"
  | .shmem => ascii "Shmem:"
  | .swapTotal => ascii "SwapTotal:"
  | .swapFree => ascii "SwapFree:"

def MemField.get : MemField → MemReport → Nat
  | .total, m => m.totalKb
  | .free, m => m.freeKb
  | .available, m => m.availableKb
  | .anon, m => m.anonKb
  | .file, m => m.fileKb
  | .slab, m => m.slabKb
  | .shmem, m => m.shmemKb
  | .swapTotal, m => m.swapTotalKb
  | .swapFree, m => m.swapFreeKb

theorem MemField.key_injective {x y : MemField} (h : x.key = y.key) : x = y := by
  cases x <;> cases y <;> first | rfl | exact absurd h (by decide)

/-- What an entry gives to a field. -/
def memWrites (x : MemField) (entry : Bytes × Nat) : Option Nat :=
  if cstr entry.1 = x.key then some entry.2 else none

theorem MemReport.set_key (m : MemReport) (y : MemField) {key : Bytes} (hkey : cstr key = y.key)
    (val : Nat) (x : MemField) : x.get (m.set key val) = if x = y then val else x.get m := by
  unfold MemReport.set
  rw [hkey]
  cases y <;> cases x <;> rfl

theorem MemReport.set_other (m : MemReport) {key : Bytes} (hkey : ∀ y : MemField, cstr key ≠ y.key)
    (val : Nat) : m.set key val = m := by
  unfold MemReport.set
  dsimp only
  split_ifs with h₁ h₂ h₃ h₄ h₅ h₆ h₇ h₈ h₉
  · exact absurd h₁ (hkey .total)
  · exact absurd h₂ (hkey .free)
  · exact absurd h₃ (hkey .available)
  · exact absurd h₄ (hkey .anon)
  · exact absurd h₅ (hkey .file)
  · exact absurd h₆ (hkey .slab)
  · exact absurd h₇ (hkey .shmem)
  · exact absurd h₈ (hkey .swapTotal)
  · exact absurd h₉ (hkey .swapFree)
  · rfl

theorem MemReport.get_set (m : MemReport) (entry : Bytes × Nat) (x : MemField) :
    x.get (m.set entry.1 entry.2) = (memWrites x entry).getD (x.get m) := by
  unfold memWrites
  by_cases hknown : ∃ y : MemField, cstr entry.1 = y.key
  · obtain ⟨y, hy⟩ := hknown
    rw [m.set_key y hy, hy]
    by_cases hxy : x = y
    · rw [if_pos hxy, if_pos (congrArg MemField.key hxy.symm)]
      rfl
    · rw [if_neg hxy, if_neg fun h => hxy (MemField.key_injective h).symm]
      rfl
  · rw [not_exists] at hknown
    rw [m.set_other hknown, if_neg (hknown x)]
    rfl

theorem mem_assigns :
    Assigns (fun (m : MemReport) (entry : Bytes × Nat) => some (m.set entry.1 entry.2))
      MemField.get memWrites (fun _ => True) (fun _ => True) where
  inv_step _ _ := trivial
  get_step _ _ hstep x := by
    cases hstep
    exact MemReport.get_set _ _ x

/-- After entries in a row each field has the number of the last one with its key. -/
theorem get_entries (entries : List (Bytes × Nat)) (m : MemReport) (x : MemField) :
    x.get (entries.foldl (fun m e => m.set e.1 e.2) m) =
      (lastWrite memWrites x entries).getD (x.get m) := by
  have hrun : entries.foldlM (fun (m : MemReport) (e : Bytes × Nat) => some (m.set e.1 e.2)) m =
      some (entries.foldl (fun m e => m.set e.1 e.2) m) := by
    induction entries generalizing m with
    | nil => rfl
    | cons e entries ih => exact ih (m.set e.1 e.2)
  exact (mem_assigns.run (fun _ _ => trivial) trivial hrun).2 x

/-! ## The whole file -/

def entries (lines : List MemLine) : List (Bytes × Nat) := lines.map fun l => (l.key, l.value)

theorem length_le_text (lines : List MemLine) : lines.length ≤ (lines.flatMap MemLine.text).length := by
  induction lines with
  | nil => exact Nat.le_refl _
  | cons l lines ih =>
      have hpos : 0 < l.text.length := by simp [MemLine.text]
      rw [List.flatMap_cons, List.length_append, List.length_cons]
      omega

theorem foldl_entries (lines : List MemLine) (m : MemReport) :
    lines.foldl (fun m l => m.set l.key l.value) m =
      (entries lines).foldl (fun m e => m.set e.1 e.2) m := by
  rw [entries, List.foldl_map]

/-- Of a file of lines with units, and of one that goes on with two lines without and a
third line, `meminfo` gives every field the number of the last line with its key among
the former, and for the second kind of file the first line without a unit too. What comes
after is not read. So `anon_kb` is 0, unless a line has the key `Anonymous:`. -/
theorem meminfo_fields (lines : List MemLine) (l₁ l₂ : BareLine) (hunit : l₂.key.length ≤ 15)
    {c : UInt8} (hc : isLetter c = true) (rest : Bytes) (x : MemField) :
    x.get (meminfo (some (lines.flatMap MemLine.text))) =
        (lastWrite memWrites x (entries lines)).getD 0 ∧
      x.get (meminfo (some (lines.flatMap MemLine.text ++ (l₁.text ++ (l₂.text ++ c :: rest))))) =
        (lastWrite memWrites x (entries lines ++ [(l₁.key, l₁.value)])).getD 0 ∧
      ((∀ l ∈ lines, cstr l.key ≠ ascii "Anonymous:") →
        (meminfo (some (lines.flatMap MemLine.text))).anonKb = 0) := by
  have hzero : x.get {} = 0 := by cases x <;> rfl
  have hplain : meminfo (some (lines.flatMap MemLine.text)) =
      (entries lines).foldl (fun (m : MemReport) e => m.set e.1 e.2) {} := by
    obtain ⟨fuel, hfuel⟩ := Nat.exists_eq_add_of_le (length_le_text lines)
    have hread := readEntries_lines lines fuel {} []
    rw [List.append_nil, ← hfuel, foldl_entries] at hread
    refine Eq.trans hread ?_
    cases fuel with
    | zero => rfl
    | succ fuel => rfl
  refine ⟨?_, ?_, fun hno => ?_⟩
  · rw [hplain, get_entries, hzero]
  · have hlong : lines.length + 2 ≤
        (lines.flatMap MemLine.text ++ (l₁.text ++ (l₂.text ++ c :: rest))).length := by
      have hlines := length_le_text lines
      have h₁ : 0 < l₁.text.length := by simp [BareLine.text]
      have h₂ : 0 < l₂.text.length := by simp [BareLine.text]
      simp only [List.length_append]
      omega
    obtain ⟨fuel, hfuel⟩ := Nat.exists_eq_add_of_le hlong
    have hread := readEntries_lines lines (fuel + 2) {} (l₁.text ++ (l₂.text ++ c :: rest))
    rw [BareLine.readEntries_bare l₁ l₂ hunit hc, foldl_entries] at hread
    have hlast : (entries lines ++ [(l₁.key, l₁.value)]).foldl
        (fun (m : MemReport) e => m.set e.1 e.2) {} =
          ((entries lines).foldl (fun (m : MemReport) e => m.set e.1 e.2) {}).set l₁.key l₁.value := by
      rw [List.foldl_append]
      rfl
    have hall : meminfo (some (lines.flatMap MemLine.text ++ (l₁.text ++ (l₂.text ++ c :: rest)))) =
        (entries lines ++ [(l₁.key, l₁.value)]).foldl
          (fun (m : MemReport) e => m.set e.1 e.2) {} := by
      rw [hlast, ← hread]
      show readEntries _ {} _ = _
      rw [hfuel]
      congr 1
      omega
    rw [hall, get_entries, hzero]
  · rw [hplain]
    have hanon := get_entries (entries lines) {} .anon
    have hnone : lastWrite memWrites .anon (entries lines) = none := by
      unfold lastWrite
      rw [List.getLast?_eq_none_iff, List.filterMap_eq_nil_iff]
      intro e he
      obtain ⟨l, hl, rfl⟩ := List.mem_map.mp he
      exact if_neg (hno l hl)
    rw [hnone] at hanon
    exact hanon

/-- The free memory of a file in which the huge pages follow. -/
theorem meminfo_fields_huge :
    MemField.free.get (meminfo (some (ascii "MemFree:   12 kB\nHugePages_Total:    3\n" ++
      ascii "HugePages_Free:     1\nHugetlb: 0 kB\nMemFree: 9 kB\n"))) = 12 := by
  let free : MemLine := ⟨ascii "MemFree:", 2, ascii "12", ascii "kB",
    by unfold IsWord; decide +kernel, by decide +kernel, by unfold IsWord; decide +kernel⟩
  let total : BareLine := ⟨ascii "HugePages_Total:", 3, ascii "3",
    by unfold IsWord; decide +kernel, by decide +kernel⟩
  let left : BareLine := ⟨ascii "HugePages_Free:", 4, ascii "1",
    by unfold IsWord; decide +kernel, by decide +kernel⟩
  exact (meminfo_fields [free] total left (by decide +kernel) (c := 72) rfl
    (ascii "ugetlb: 0 kB\nMemFree: 9 kB\n") .free).2.1

end Memflux.Core
