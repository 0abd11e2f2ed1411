import Memflux.Core.ProcFiles

/-! # Mappings of a process

`read_maps` on the bytes of `/proc/<pid>/maps`. Every line gives a range with its bounds and
permissions. The line is read in pieces of 511 bytes, and each piece that the pattern
accepts gives a range: one inside a long file name does too.
-/

namespace Memflux.Core

open LineBuffer

/-! ## The pattern -/

def isHex (b : UInt8) : Bool := isDigit b || (65 ≤ b ∧ b ≤ 70) || (97 ≤ b ∧ b ≤ 102)

def hexDigit (b : UInt8) : Nat :=
  if isDigit b then b.toNat - 48 else if b ≤ 70 then b.toNat - 55 else b.toNat - 87

def hexValue (ds : Bytes) : Nat := ds.foldl (fun n d => n * 16 + hexDigit d) 0

/-- `%lx`: blanks, a sign, `0x` and digits, with the text that follows them. A number that
is too large gives the largest one, and a negated one is reduced. -/
def scanHex (s : Bytes) : Option (Nat × Bytes) :=
  let t := s.dropWhile isSpace
  let negative := t.head? = some 45
  let u := if t.head? = some 43 ∨ t.head? = some 45 then t.tail else t
  let v := if u.head? = some 48 ∧ (u[1]? = some 120 ∨ u[1]? = some 88) then u.drop 2 else u
  let n := hexValue (v.takeWhile isHex)
  if v.takeWhile isHex = [] then none
  else some (if 2 ^ 64 ≤ n then 2 ^ 64 - 1 else if negative then u64 (2 ^ 64 - n) else n,
    v.dropWhile isHex)

/-- `%7s`. -/
def scanWord (s : Bytes) : Option Bytes :=
  let w := ((s.dropWhile isSpace).takeWhile fun b => !isSpace b).take 7
  if w = [] then none else some w

/-- `%lx-%lx %7s`, all of it. -/
def scanMaps (line : Bytes) : Option (Nat × Nat × Bytes) :=
  (scanHex line).bind fun (a, s) =>
    if s.head? = some 45 then
      (scanHex s.tail).bind fun (b, s) => (scanWord s).map fun perms => (a, b, perms)
    else none

/-- What one piece of the file gives. -/
def mapsRange (piece : Bytes) : Option VmaRange :=
  (scanMaps (cstr piece)).map fun (a, b, perms) =>
    let writable := decide (perms[1]? = some 119)
    { start := a
      stop := b
      readable := perms.head? = some 114
      writable
      privAnon := writable && decide (47 ∉ cstr piece) }

def readMaps (file : Option Bytes) : List VmaRange :=
  ((file.map (pieces 10 511)).getD []).filterMap mapsRange

/-! ## Digits and words -/

theorem hexDigit_lt {d : UInt8} (hd : isHex d = true) : hexDigit d < 16 := by
  unfold isHex isDigit at hd
  unfold hexDigit isDigit
  simp only [Bool.or_eq_true, decide_eq_true_eq, UInt8.le_iff_toNat_le] at hd ⊢
  simp at hd ⊢
  split_ifs <;> omega

theorem hexValue_lt {ds : Bytes} (hds : ∀ d ∈ ds, isHex d = true) :
    hexValue ds < 16 ^ ds.length := by
  induction ds using List.reverseRecOn with
  | nil => exact Nat.one_pos
  | append_singleton ds d ih =>
      have hlast := hexDigit_lt (hds d (List.mem_append_right ds (List.mem_singleton.mpr rfl)))
      have hrest := ih fun d' hd' => hds d' (List.mem_append_left [d] hd')
      unfold hexValue at hrest ⊢
      rw [List.foldl_append, List.length_append, List.length_singleton, Nat.pow_succ,
        List.foldl_cons, List.foldl_nil]
      omega

theorem isHex_ne {d b : UInt8} (hd : isHex d = true) (hb : isHex b = false) : d ≠ b := by
  rintro rfl
  exact Bool.false_ne_true (hb.symm.trans hd)

theorem isSpace_hex {d : UInt8} (hd : isHex d = true) : isSpace d = false := by
  unfold isHex isDigit at hd
  unfold isSpace
  simp only [Bool.or_eq_true, decide_eq_true_eq, decide_eq_false_iff_not,
    UInt8.le_iff_toNat_le, ← UInt8.toNat_inj] at hd ⊢
  simp at hd ⊢
  omega

theorem scanHex_append {ds : Bytes} (hds : ∀ d ∈ ds, isHex d = true) (hsome : ds ≠ [])
    (hlength : ds.length ≤ 16) {c : UInt8} (hc : isHex c = false) (hx : c ≠ 120 ∧ c ≠ 88)
    (s : Bytes) : scanHex (ds ++ c :: s) = some (hexValue ds, c :: s) := by
  have hvalue : hexValue ds < 2 ^ 64 := by
    calc hexValue ds < 16 ^ ds.length := hexValue_lt hds
      _ ≤ 16 ^ 16 := Nat.pow_le_pow_right (by decide) hlength
      _ = 2 ^ 64 := by decide
  have htake : (ds ++ c :: s).takeWhile isHex = ds := by
    rw [List.takeWhile_append_of_pos hds, List.takeWhile_cons_of_neg (by simp [hc]),
      List.append_nil]
  have hdrop : (ds ++ c :: s).dropWhile isHex = c :: s := by
    rw [List.dropWhile_append_of_pos hds, List.dropWhile_cons_of_neg (by simp [hc])]
  obtain ⟨d, ds', rfl⟩ := List.exists_cons_of_ne_nil hsome
  have hd := hds d List.mem_cons_self
  have hspace : (d :: ds' ++ c :: s).dropWhile isSpace = d :: ds' ++ c :: s := by
    rw [List.cons_append, List.dropWhile_cons_of_neg (by simp [isSpace_hex hd])]
  have hsign (b : UInt8) (hb : isHex b = false) : (d :: ds' ++ c :: s).head? ≠ some b :=
    fun h => isHex_ne hd hb (Option.some.inj h)
  have hmark (b : UInt8) (hb : isHex b = false) (hcb : c ≠ b) :
      (d :: ds' ++ c :: s)[1]? ≠ some b := by
    intro h
    cases ds' with
    | nil => exact hcb (by simpa using h)
    | cons d' ds' =>
        have hd' := hds d' (List.mem_cons_of_mem d List.mem_cons_self)
        exact isHex_ne hd' hb (by simpa using h)
  have hprefixed : ¬ ((d :: ds' ++ c :: s).head? = some 48 ∧
      ((d :: ds' ++ c :: s)[1]? = some 120 ∨ (d :: ds' ++ c :: s)[1]? = some 88)) :=
    fun h => h.2.elim (hmark 120 rfl hx.1) (hmark 88 rfl hx.2)
  unfold scanHex
  dsimp only
  rw [hspace, if_neg (not_or.mpr ⟨hsign 43 rfl, hsign 45 rfl⟩), if_neg hprefixed, htake, hdrop,
    if_neg hsome, if_neg (by omega), if_neg (hsign 45 rfl)]

/-! ## A line of `maps` -/

def isPerm (b : UInt8) : Bool := b = 114 ∨ b = 119 ∨ b = 120 ∨ b = 115 ∨ b = 112 ∨ b = 45

/-- The bytes of offset, device and inode, and the blanks between them. -/
def isAttr (b : UInt8) : Bool := isHex b || b = 58 || b = 32

/-- A line of `/proc/<pid>/maps`: the bounds, the permissions, the columns up to the name,
and the name, in which the kernel writes a line end as `\012`. -/
structure MapsLine where
  start : Bytes
  stop : Bytes
  perms : Bytes
  attrs : Bytes
  name : Bytes
  start_hex : (start.all isHex = true ∧ start ≠ []) ∧ start.length ≤ 16
  stop_hex : (stop.all isHex = true ∧ stop ≠ []) ∧ stop.length ≤ 16
  perms_four : perms.all isPerm = true ∧ perms.length = 4
  attrs_short : attrs.all isAttr = true ∧ attrs.length ≤ 128
  name_plain : (10 : UInt8) ∉ name ∧ (0 : UInt8) ∉ name

namespace MapsLine

/-- The line as far as the pattern goes. -/
def front (l : MapsLine) : Bytes := l.start ++ 45 :: (l.stop ++ 32 :: l.perms)

def text (l : MapsLine) : Bytes := l.front ++ (l.attrs ++ l.name)

def writable (l : MapsLine) : Bool := l.perms[1]? = some 119

/-- The name is the path of a file. -/
def filePath (l : MapsLine) : Bool := l.name.head? = some 47

def range (l : MapsLine) : VmaRange where
  start := hexValue l.start
  stop := hexValue l.stop
  readable := l.perms.head? = some 114
  writable := l.writable
  privAnon := l.writable && !l.filePath

/-- What is read of the line after the first 511 bytes. -/
def continuations (l : MapsLine) : List Bytes := pieces 10 511 ((l.text ++ [10]).drop 511)

theorem front_length (l : MapsLine) : l.front.length ≤ 38 := by
  have hstart := l.start_hex.2
  have hstop := l.stop_hex.2
  have hperms := l.perms_four.2
  unfold front
  simp only [List.length_append, List.length_cons]
  omega

theorem front_not_mem (l : MapsLine) {b : UInt8} (hhex : isHex b = false)
    (hperm : isPerm b = false) (hb : b ≠ 45 ∧ b ≠ 32) : b ∉ l.front := by
  intro hmem
  unfold front at hmem
  rw [List.mem_append, List.mem_cons, List.mem_append, List.mem_cons] at hmem
  rcases hmem with hmem | h | hmem | h | hmem
  · exact Bool.false_ne_true (hhex.symm.trans (List.all_eq_true.mp l.start_hex.1.1 b hmem))
  · exact hb.1 h
  · exact Bool.false_ne_true (hhex.symm.trans (List.all_eq_true.mp l.stop_hex.1.1 b hmem))
  · exact hb.2 h
  · exact Bool.false_ne_true (hperm.symm.trans (List.all_eq_true.mp l.perms_four.1 b hmem))

theorem text_plain (l : MapsLine) : (10 : UInt8) ∉ l.text ∧ (0 : UInt8) ∉ l.text := by
  have hmem (b : UInt8) (hfront : b ∉ l.front) (hattr : isAttr b = false) (hname : b ∉ l.name) :
      b ∉ l.text := by
    intro hmem
    unfold text at hmem
    rw [List.mem_append, List.mem_append] at hmem
    rcases hmem with hmem | hmem | hmem
    · exact hfront hmem
    · exact Bool.false_ne_true (hattr.symm.trans (List.all_eq_true.mp l.attrs_short.1 b hmem))
    · exact hname hmem
  constructor
  · exact hmem 10 (l.front_not_mem rfl rfl (by decide)) rfl l.name_plain.1
  · exact hmem 0 (l.front_not_mem rfl rfl (by decide)) rfl l.name_plain.2

theorem perms_solid (l : MapsLine) : ∀ b ∈ l.perms, isSpace b = false := by
  intro b hb
  have hperm := List.all_eq_true.mp l.perms_four.1 b hb
  unfold isPerm at hperm
  rcases of_decide_eq_true hperm with h | h | h | h | h | h <;> rw [h] <;> rfl

theorem scanWord_perms (l : MapsLine) (rest : Bytes) :
    scanWord (32 :: (l.perms ++ rest)) =
      some (l.perms ++ (rest.takeWhile fun b => !isSpace b).take 3) := by
  have hfour := l.perms_four.2
  have hskip : (32 :: (l.perms ++ rest)).dropWhile isSpace = l.perms ++ rest := by
    obtain ⟨b, t, hbt⟩ := List.exists_cons_of_length_eq_add_one hfour
    have hsolid := l.perms_solid b (by rw [hbt]; exact List.mem_cons_self)
    rw [List.dropWhile_cons_of_pos rfl, hbt, List.cons_append,
      List.dropWhile_cons_of_neg (by rw [hsolid]; exact Bool.false_ne_true)]
  have htake : ((l.perms ++ rest).takeWhile fun b => !isSpace b).take 7 =
      l.perms ++ (rest.takeWhile fun b => !isSpace b).take 3 := by
    rw [List.takeWhile_append_of_pos (fun b hb => by rw [l.perms_solid b hb]; rfl),
      List.take_append, List.take_of_length_le (by omega), hfour]
  unfold scanWord
  dsimp only
  rw [hskip, htake, if_neg]
  intro hnil
  rw [(List.append_eq_nil_iff.mp hnil).1] at hfour
  cases hfour

/-- The pattern reads the bounds and the permissions, whatever follows them. -/
theorem scanMaps_front (l : MapsLine) (rest : Bytes) :
    ∃ w, scanMaps (l.front ++ rest) = some (hexValue l.start, hexValue l.stop, l.perms ++ w) := by
  obtain ⟨⟨hstart, hstart'⟩, hstartLength⟩ := l.start_hex
  obtain ⟨⟨hstop, hstop'⟩, hstopLength⟩ := l.stop_hex
  have hfirst : scanHex (l.front ++ rest) =
      some (hexValue l.start, 45 :: (l.stop ++ 32 :: (l.perms ++ rest))) := by
    unfold front
    rw [List.append_assoc, List.cons_append, List.append_assoc, List.cons_append]
    exact scanHex_append (List.all_eq_true.mp hstart) hstart' hstartLength rfl (by decide) _
  have hsecond : scanHex (l.stop ++ 32 :: (l.perms ++ rest)) =
      some (hexValue l.stop, 32 :: (l.perms ++ rest)) :=
    scanHex_append (List.all_eq_true.mp hstop) hstop' hstopLength rfl (by decide) _
  apply Exists.intro ((rest.takeWhile fun b => !isSpace b).take 3)
  unfold scanMaps
  rw [hfirst, Option.bind_some]
  dsimp only
  rw [if_pos List.head?_cons, List.tail_cons, hsecond, Option.bind_some]
  dsimp only
  rw [l.scanWord_perms]
  rfl

/-- The first piece of the line, which always reaches beyond the permissions. -/
def seen (l : MapsLine) : VmaRange :=
  { l.range with privAnon := l.writable && decide (47 ∉ l.text.take 511) }

theorem mapsRange_first (l : MapsLine) :
    mapsRange ((l.text ++ [10]).take 511) = some l.seen := by
  have hfour := l.perms_four.2
  have hpiece : (l.text ++ [10]).take 511 = l.text.take 511 ++ [10].take (511 - l.text.length) :=
    List.take_append
  have hmem (b : UInt8) (hb : b ≠ 10) :
      b ∈ (l.text ++ [10]).take 511 ↔ b ∈ l.text.take 511 := by
    rw [hpiece, List.mem_append]
    constructor
    · rintro (h | h)
      · exact h
      · exact absurd (List.mem_singleton.mp (List.mem_of_mem_take h)) hb
    · exact Or.inl
  have hclean : cstr ((l.text ++ [10]).take 511) = (l.text ++ [10]).take 511 := by
    apply cstr_eq_self
    rw [hmem 0 (by decide)]
    exact fun h => l.text_plain.2 (List.mem_of_mem_take h)
  have hfront : (l.text ++ [10]).take 511 =
      l.front ++ (l.attrs ++ l.name ++ [10]).take (511 - l.front.length) := by
    have hlength := l.front_length
    unfold text
    rw [List.append_assoc, List.take_append, List.take_of_length_le (by omega)]
  obtain ⟨w, hscan⟩ :=
    l.scanMaps_front ((l.attrs ++ l.name ++ [10]).take (511 - l.front.length))
  have hread : (l.perms ++ w).head? = l.perms.head? := by
    apply List.head?_append_of_ne_nil
    intro hnil
    rw [hnil] at hfour
    cases hfour
  have hwrite : (l.perms ++ w)[1]? = l.perms[1]? := List.getElem?_append_left (by omega)
  have hslash : decide (47 ∉ (l.text ++ [10]).take 511) = decide (47 ∉ l.text.take 511) :=
    decide_eq_decide.mpr (not_congr (hmem 47 (by decide)))
  unfold mapsRange
  rw [hclean, hslash, hfront, hscan, Option.map_some]
  dsimp only
  rw [hread, hwrite]
  rfl

theorem filePath_mem (l : MapsLine) (h : l.filePath = true) : (47 : UInt8) ∈ l.text.take 511 := by
  have hfront := l.front_length
  have hattrs := l.attrs_short.2
  obtain ⟨rest, hname⟩ := List.head?_eq_some_iff.mp (of_decide_eq_true h)
  unfold text
  rw [hname, ← List.append_assoc, List.take_append, List.take_of_length_le (by simp; omega)]
  obtain ⟨k, hk⟩ : ∃ k, 511 - (l.front ++ l.attrs).length = k + 1 := by
    apply Exists.intro (510 - (l.front ++ l.attrs).length)
    rw [List.length_append]
    omega
  rw [hk]
  exact List.mem_append_right _ List.mem_cons_self

theorem seen_eq_range_iff (l : MapsLine) : l.seen = l.range ↔
    (l.writable = true → l.filePath = false → (47 : UInt8) ∉ l.text.take 511) := by
  have hpath := l.filePath_mem
  unfold seen range
  cases l.writable with
  | false => simp
  | true =>
      cases hfile : l.filePath with
      | false => simp
      | true => simp [hpath hfile]

end MapsLine

/-! ## The file -/

def mapsText (lines : List MapsLine) : Bytes := (lines.map MapsLine.text).flatMap (· ++ [10])

theorem readMaps_text (lines : List MapsLine) :
    readMaps (some (mapsText lines)) =
      lines.flatMap fun l => l.seen :: l.continuations.filterMap mapsRange := by
  have hends : ∀ t ∈ lines.map MapsLine.text, (10 : UInt8) ∉ t := by
    intro t ht
    obtain ⟨l, -, rfl⟩ := List.mem_map.mp ht
    exact l.text_plain.1
  unfold readMaps mapsText
  rw [Option.map_some, Option.getD_some, pieces_lines (by decide) hends, List.flatMap_map,
    List.filterMap_flatMap]
  congr 1
  funext l
  rw [pieces_of_line (by decide) l.text_plain.1, List.filterMap_cons_some l.mapsRange_first]
  rfl

theorem flatMap_cons_eq_map_iff {α β : Type} {f g : α → β} {rest : α → List β} {l : List α} :
    (l.flatMap fun a => f a :: rest a) = l.map g ↔ ∀ a ∈ l, f a = g a ∧ rest a = [] := by
  have hlength (l : List α) : l.length ≤ (l.flatMap fun a => f a :: rest a).length := by
    induction l with
    | nil => exact Nat.zero_le _
    | cons a l ih =>
        rw [List.flatMap_cons, List.length_append, List.length_cons, List.length_cons]
        omega
  induction l with
  | nil => simp
  | cons a l ih =>
      rw [List.flatMap_cons, List.map_cons, List.cons_append, List.cons.injEq,
        List.forall_mem_cons]
      constructor
      · rintro ⟨hfirst, hrest⟩
        have hcount := congrArg List.length hrest
        rw [List.length_append, List.length_map] at hcount
        have hnone : rest a = [] := by
          apply List.eq_nil_of_length_eq_zero
          have hmore := hlength l
          omega
        rw [hnone, List.nil_append] at hrest
        exact ⟨⟨hfirst, hnone⟩, ih.mp hrest⟩
      · rintro ⟨⟨hfirst, hnone⟩, hrest⟩
        rw [hnone, List.nil_append]
        exact ⟨hfirst, ih.mpr hrest⟩

/-- The ranges are those of the lines, one for each and in order, if and only if the pattern
accepts nothing of a line beyond its first piece and no writable mapping without a file has
a slash in its name there. -/
theorem readMaps_iff (lines : List MapsLine) :
    readMaps (some (mapsText lines)) = lines.map MapsLine.range ↔
      ∀ l ∈ lines, (∀ piece ∈ l.continuations, scanMaps (cstr piece) = none) ∧
        (l.writable = true → l.filePath = false → (47 : UInt8) ∉ l.text.take 511) := by
  rw [readMaps_text, flatMap_cons_eq_map_iff]
  apply forall₂_congr
  intro l _
  rw [l.seen_eq_range_iff, and_comm, List.filterMap_eq_nil_iff]
  apply and_congr_left'
  apply forall₂_congr
  intro piece _
  exact Option.map_eq_none_iff

/-- The end of a long file name is taken for a writable mapping from 5 to 6. -/
theorem name_mapped :
    ¬ ∀ lines : List MapsLine, readMaps (some (mapsText lines)) = lines.map MapsLine.range := by
  intro h
  let dir : Bytes := 47 :: List.replicate 477 97
  have hdir : ∀ b ∈ dir, b = 47 ∨ b = 97 := by
    intro b hb
    rcases List.mem_cons.mp hb with hb | hb
    · exact Or.inl hb
    · exact Or.inr (List.eq_of_mem_replicate hb)
  have hplain (b : UInt8) (hb : b ≠ 47 ∧ b ≠ 97) (hend : b ∉ ascii "5-6 rw") :
      b ∉ dir ++ ascii "5-6 rw" := by
    intro hmem
    rcases List.mem_append.mp hmem with hmem | hmem
    · exact (hdir b hmem).elim hb.1 hb.2
    · exact hend hmem
  let l : MapsLine :=
    { start := ascii "1000"
      stop := ascii "2000"
      perms := ascii "r--p"
      attrs := ascii " 00000000 08:01 77 "
      name := dir ++ ascii "5-6 rw"
      start_hex := by decide
      stop_hex := by decide
      perms_four := by decide
      attrs_short := by decide
      name_plain := ⟨hplain 10 (by decide) (by decide), hplain 0 (by decide) (by decide)⟩ }
  have hsplit : l.text ++ [10] =
      (l.front ++ (l.attrs ++ dir)) ++ (ascii "5-6 rw" ++ [10]) := by
    unfold MapsLine.text
    simp only [List.append_assoc, l]
  have hfront : l.front.length = 14 := rfl
  have hattrs : l.attrs.length = 19 := rfl
  have hlength : (l.front ++ (l.attrs ++ dir)).length = 511 := by
    rw [List.length_append, List.length_append, List.length_cons, List.length_replicate, hfront,
      hattrs]
  have hrest : l.continuations = pieces 10 511 (ascii "5-6 rw" ++ [10]) := by
    unfold MapsLine.continuations
    rw [hsplit, List.drop_left' hlength]
  have hcount := congrArg List.length (h [l])
  have hmapped : ((pieces 10 511 (ascii "5-6 rw" ++ [10])).filterMap mapsRange).length = 1 := by
    decide
  rw [readMaps_text, List.flatMap_singleton, hrest, List.length_cons, hmapped] at hcount
  cases hcount

end Memflux.Core
