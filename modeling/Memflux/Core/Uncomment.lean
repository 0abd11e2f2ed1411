import Memflux.Core.Reload

/-! # Texts without their comments

Comments are whole lines, and the part of a value from the first blank that a `#` follows.
A reload skips the former and keeps the latter in the value: the settings of the text
without its comments are those of the text, each with its value cut there.
-/

namespace Memflux.Core

/-! ## Without comments -/

/-- What stands before the first blank that a `#` follows. -/
def dropComment : Bytes → Bytes
  | b :: c :: s => if isBlank b = true ∧ c = 35 then [] else b :: dropComment (c :: s)
  | s => s

def uncommented (v : Bytes) : Bytes := trim (dropComment v)

def commented (v : Bytes) : Bool := decide (dropComment v ≠ v)

/-- A line that is a comment from its first character on. -/
def isComment (line : Bytes) : Bool :=
  decide ((trim line).head? = some 35 ∨ (trim line).head? = some 59)

/-- A line with a value loses the comment after it. A line that begins with a bracket is
no line with a value. -/
def uncommentLine (line : Bytes) : Bytes :=
  match readLine line with
  | .setting k _ =>
      if k.head? = some 91 then line
      else
        match cut 61 line with
        | none => line
        | some (before, after) =>
            before ++ 61 :: (after.takeWhile isBlank ++ dropComment (after.dropWhile isBlank))
  | _ => line

def uncomment (text : Bytes) : Bytes :=
  unlines (((text.splitOn 10).filter fun line => !isComment line).map uncommentLine)

/-! ## Blanks at the ends -/

section

variable {s b b' : Bytes}

theorem dropWhile_blank (hb : ∀ c ∈ b, isBlank c = true) : b.dropWhile isBlank = [] :=
  List.dropWhile_eq_nil_iff.mpr hb

theorem rdropWhile_blank (hb : ∀ c ∈ b, isBlank c = true) :
    (s ++ b).rdropWhile isBlank = s.rdropWhile isBlank := by
  unfold List.rdropWhile
  rw [List.reverse_append, List.dropWhile_append_of_pos fun c hc => hb c (List.mem_reverse.mp hc)]

theorem trim_append_left (hb : ∀ c ∈ b, isBlank c = true) : trim (b ++ s) = trim s := by
  unfold trim
  rw [List.dropWhile_append_of_pos hb]

theorem trim_append_right (hb : ∀ c ∈ b, isBlank c = true) : trim (s ++ b) = trim s := by
  unfold trim
  rw [List.dropWhile_append]
  split
  · rename_i hs
    rw [List.isEmpty_iff] at hs
    rw [hs, dropWhile_blank hb]
  · exact rdropWhile_blank hb

theorem trim_split (s : Bytes) :
    ∃ b b', s = b ++ trim s ++ b' ∧ (∀ c ∈ b, isBlank c = true) ∧ ∀ c ∈ b', isBlank c = true := by
  refine ⟨s.takeWhile isBlank, (s.dropWhile isBlank).rtakeWhile isBlank, ?_, ?_, ?_⟩
  · unfold trim
    rw [List.append_assoc, List.rdropWhile_append_rtakeWhile, List.takeWhile_append_dropWhile]
  · exact fun c hc => List.mem_takeWhile_imp hc
  · exact fun c hc => List.mem_rtakeWhile_imp hc

/-- A text that begins with a character that is no blank keeps its beginning. -/
theorem trim_of_head {c : UInt8} (hc : isBlank c = false) (s : Bytes) :
    trim (c :: s) = (c :: s).rdropWhile isBlank := by
  unfold trim
  rw [List.dropWhile_cons_of_neg (by simp [hc])]

theorem trim_head (s : Bytes) : trim s = [] ∨ ∃ c t, trim s = c :: t ∧ isBlank c = false := by
  cases hs : trim s with
  | nil => exact Or.inl rfl
  | cons c t =>
      refine Or.inr ⟨c, t, rfl, ?_⟩
      have hprefix : trim s <+: s.dropWhile isBlank := List.rdropWhile_prefix _ _
      rw [hs] at hprefix
      cases hd : s.dropWhile isBlank with
      | nil =>
          rw [hd] at hprefix
          exact absurd (List.prefix_nil.mp hprefix) (List.cons_ne_nil c t)
      | cons d u =>
          rw [hd] at hprefix
          obtain ⟨rfl, -⟩ := List.cons_prefix_cons.mp hprefix
          have hhead := List.head_dropWhile_not isBlank (l := s) (by rw [hd]; simp)
          simpa [hd] using hhead

theorem trim_trim (s : Bytes) : trim (trim s) = trim s := by
  rcases trim_head s with hs | ⟨c, t, hs, hc⟩
  · rw [hs]
    rfl
  · have hself : (trim s).rdropWhile isBlank = trim s := List.rdropWhile_idempotent _ _
    rw [hs, trim_of_head hc, ← hs, hself]

theorem rdropWhile_middle {d : UInt8} (hd : isBlank d = false) (s t : Bytes) :
    (s ++ d :: t).rdropWhile isBlank = s ++ d :: t.rdropWhile isBlank := by
  induction t using List.reverseRecOn with
  | nil =>
      rw [List.rdropWhile_concat_neg _ _ _ (by simp [hd])]
      rfl
  | append_singleton t e ih =>
      have hsplit : s ++ d :: (t ++ [e]) = (s ++ d :: t) ++ [e] := by simp
      rw [hsplit, List.rdropWhile_concat, List.rdropWhile_concat]
      split
      · exact ih
      · exact hsplit.symm

/-- Up to a character that is no blank, a text that begins with none is trimmed on its
right only. -/
theorem trim_middle {d : UInt8} (hd : isBlank d = false) {s : Bytes}
    (hs : ∀ c, s.head? = some c → isBlank c = false) (t : Bytes) :
    trim (s ++ d :: t) = s ++ d :: t.rdropWhile isBlank := by
  have hhead : trim (s ++ d :: t) = (s ++ d :: t).rdropWhile isBlank := by
    cases s with
    | nil => exact trim_of_head hd t
    | cons c s => exact trim_of_head (hs c rfl) (s ++ d :: t)
  rw [hhead, rdropWhile_middle hd]

theorem trim_rdropWhile (s : Bytes) : trim (s.rdropWhile isBlank) = trim s := by
  have hsplit : s.rdropWhile isBlank ++ s.rtakeWhile isBlank = s :=
    List.rdropWhile_append_rtakeWhile
  have hblank : ∀ c ∈ s.rtakeWhile isBlank, isBlank c = true := fun c hc =>
    List.mem_rtakeWhile_imp hc
  have htrim := trim_append_right (s := s.rdropWhile isBlank) hblank
  rw [hsplit] at htrim
  exact htrim.symm

/-! ## Lines -/

theorem cut_iff {d : UInt8} {x y : Bytes} : cut d s = some (x, y) ↔ s = x ++ d :: y ∧ d ∉ x := by
  unfold cut
  constructor
  · intro h
    obtain ⟨hmem, hsome⟩ := Option.ite_none_right_eq_some.mp h
    cases hsome
    have hnot : d ∉ s.takeWhile (· != d) := by
      intro hd
      have := List.mem_takeWhile_imp hd
      simp at this
    refine ⟨?_, hnot⟩
    cases hrest : s.dropWhile (· != d) with
    | nil =>
        have hall := List.dropWhile_eq_nil_iff.mp hrest d hmem
        simp at hall
    | cons c t =>
        have hhead := List.head_dropWhile_not (· != d) (l := s) (by rw [hrest]; simp)
        have hc : c = d := by simpa [hrest] using hhead
        have hjoin := List.takeWhile_append_dropWhile (p := (· != d)) (l := s)
        rw [hrest, hc] at hjoin
        exact hjoin.symm
  · rintro ⟨rfl, hd⟩
    have hx : ∀ c ∈ x, (c != d) = true := by
      intro c hc
      rw [bne_iff_ne]
      rintro rfl
      exact hd hc
    rw [if_pos (by simp), List.takeWhile_append_of_pos hx, List.dropWhile_append_of_pos hx,
      List.takeWhile_cons_of_neg (by simp), List.dropWhile_cons_of_neg (by simp), List.append_nil,
      List.tail_cons]

theorem dropComment_append_blank (hb : ∀ c ∈ b, isBlank c = true) :
    ∃ b', dropComment (s ++ b) = dropComment s ++ b' ∧ ∀ c ∈ b', isBlank c = true := by
  have hnone : ∀ b : Bytes, (∀ c ∈ b, isBlank c = true) → dropComment b = b := by
    intro b hb
    induction b with
    | nil => rfl
    | cons c b ih =>
        cases b with
        | nil => rfl
        | cons d b =>
            have hd : d ≠ 35 := by
              rintro rfl
              exact absurd (hb 35 (by simp)) (by decide)
            rw [dropComment, if_neg fun h => hd h.2, ih fun e he => hb e (List.mem_cons_of_mem c he)]
  induction s using dropComment.induct with
  | case1 c d t hcut =>
      refine ⟨[], ?_, fun e he => absurd he List.not_mem_nil⟩
      rw [List.append_nil, List.cons_append, List.cons_append, dropComment, if_pos hcut,
        dropComment, if_pos hcut]
  | case2 c d t hgo ih =>
      obtain ⟨b', hb', hblank⟩ := ih
      refine ⟨b', ?_, hblank⟩
      rw [List.cons_append] at hb'
      rw [List.cons_append, List.cons_append, dropComment, if_neg hgo, hb', dropComment,
        if_neg hgo, List.cons_append]
  | case3 t hshort =>
      refine ⟨b, ?_, hb⟩
      cases t with
      | nil => exact hnone b hb
      | cons c t =>
          cases t with
          | cons d t => exact absurd rfl (hshort c d t)
          | nil =>
              cases b with
              | nil => rfl
              | cons d b =>
                  have hd : d ≠ 35 := by
                    rintro rfl
                    exact absurd (hb 35 (by simp)) (by decide)
                  show dropComment (c :: d :: b) = c :: (d :: b)
                  rw [dropComment, if_neg fun h => hd h.2, hnone (d :: b) hb]

theorem readLine_setting {line k v : Bytes} (h : readLine line = .setting k v) :
    ∃ x y, trim line = x ++ 61 :: y ∧ 61 ∉ x ∧ k = trim x ∧ v = trim y ∧
      (trim line).head? ≠ some 35 ∧ (trim line).head? ≠ some 59 := by
  unfold readLine at h
  dsimp only at h
  by_cases hskip : trim line = [] ∨ (trim line).head? = some 35 ∨ (trim line).head? = some 59
  · rw [if_pos hskip] at h
    cases h
  · rw [if_neg hskip] at h
    rw [not_or, not_or] at hskip
    by_cases hheader : (trim line).head? = some 91 ∧ (trim line).getLast? = some 93
    · rw [if_pos hheader] at h
      cases h
    · rw [if_neg hheader] at h
      cases hcut : cut 61 (trim line) with
      | none =>
          rw [hcut] at h
          cases h
      | some parts =>
          rw [hcut] at h
          cases h
          obtain ⟨hsplit, hnot⟩ := cut_iff.mp hcut
          exact ⟨parts.1, parts.2, hsplit, hnot, rfl, rfl, hskip.2.1, hskip.2.2⟩

/-- A line that begins like a key and has an equals sign is a setting. -/
theorem readLine_of_parts {line x y : Bytes} (hline : trim line = x ++ 61 :: y) (hx : 61 ∉ x)
    (hhash : x.head? ≠ some 35) (hsemi : x.head? ≠ some 59) (hbracket : x.head? ≠ some 91) :
    readLine line = .setting (trim x) (trim y) := by
  have hhead : ∀ c : UInt8, c ≠ 61 → x.head? ≠ some c → (trim line).head? ≠ some c := by
    intro c hc hxc
    rw [hline]
    cases x with
    | nil => simpa using Ne.symm hc
    | cons d x => exact hxc
  unfold readLine
  dsimp only
  have hcut : cut 61 (trim line) = some (x, y) := cut_iff.mpr ⟨hline, hx⟩
  have hsome : trim line ≠ [] := by rw [hline]; simp
  rw [if_neg, if_neg, hcut]
  · exact fun h => hhead 91 (by decide) hbracket h.1
  · rintro (h | h | h)
    · exact hsome h
    · exact hhead 35 (by decide) hhash h
    · exact hhead 59 (by decide) hsemi h

theorem key_head {line x y : Bytes} (hline : trim line = x ++ 61 :: y) {c : UInt8}
    (hc : x.head? = some c) : isBlank c = false := by
  rcases trim_head line with h | ⟨d, t, h, hd⟩
  · rw [h] at hline
    simp at hline
  · obtain ⟨x, rfl⟩ := List.head?_eq_some_iff.mp hc
    rw [h] at hline
    obtain ⟨rfl, -⟩ := List.cons.inj hline
    exact hd

theorem trim_bracket {x : Bytes} (h : x.head? = some 91) : (trim x).head? = some 91 := by
  obtain ⟨x, rfl⟩ := List.head?_eq_some_iff.mp h
  have hkeep := rdropWhile_middle (show isBlank 91 = false by decide) [] x
  rw [List.nil_append] at hkeep
  rw [trim_of_head (by decide), hkeep]
  rfl

/-- The text after the equals sign without its comment, whatever blanks are around it. -/
theorem value_uncommented {b' : Bytes} (hb' : ∀ c ∈ b', isBlank c = true) (y : Bytes) :
    trim (((y ++ b').takeWhile isBlank ++
      dropComment ((y ++ b').dropWhile isBlank)).rdropWhile isBlank) = uncommented (trim y) := by
  have hleft : ∀ c ∈ (y ++ b').takeWhile isBlank, isBlank c = true := fun c hc =>
    List.mem_takeWhile_imp hc
  rw [trim_rdropWhile, trim_append_left hleft]
  obtain ⟨b₁, b₂, hy, hb₁, hb₂⟩ := trim_split y
  have hrest : ∃ b₃, (y ++ b').dropWhile isBlank = trim y ++ b₃ ∧
      ∀ c ∈ b₃, isBlank c = true := by
    have hb₂' : ∀ c ∈ b₂ ++ b', isBlank c = true := List.forall_mem_append.mpr ⟨hb₂, hb'⟩
    have hwhole : y ++ b' = b₁ ++ (trim y ++ (b₂ ++ b')) := by
      conv_lhs => rw [hy]
      simp
    rw [hwhole, List.dropWhile_append_of_pos hb₁]
    rcases trim_head y with h | ⟨c, t, h, hc⟩
    · rw [h, List.nil_append, dropWhile_blank hb₂']
      exact ⟨[], rfl, fun c hc => absurd hc List.not_mem_nil⟩
    · rw [h, List.cons_append, List.dropWhile_cons_of_neg (by simp [hc])]
      exact ⟨b₂ ++ b', rfl, hb₂'⟩
  obtain ⟨b₃, hrest, hb₃⟩ := hrest
  obtain ⟨b₄, hdrop, hb₄⟩ := dropComment_append_blank (s := trim y) hb₃
  rw [hrest, hdrop, trim_append_right hb₄]
  rfl

/-- Without its comment a line with a value says the same but for the value. -/
theorem readLine_uncommentLine (line : Bytes) :
    readLine (uncommentLine line) =
      match readLine line with
      | .setting k v => .setting k (if k.head? = some 91 then v else uncommented v)
      | other => other := by
  cases hread : readLine line with
  | skipped =>
      unfold uncommentLine
      rw [hread]
      exact hread
  | header name =>
      unfold uncommentLine
      rw [hread]
      exact hread
  | setting k v =>
      dsimp only
      by_cases hk : k.head? = some 91
      · unfold uncommentLine
        rw [hread]
        dsimp only
        rw [if_pos hk, if_pos hk]
        exact hread
      · obtain ⟨x, y, hline, hx, rfl, rfl, hhash, hsemi⟩ := readLine_setting hread
        obtain ⟨b, b', hsplit, hb, hb'⟩ := trim_split line
        have hblank : isBlank 61 = false := by decide
        have hbx : 61 ∉ b ++ x := by
          intro h
          rcases List.mem_append.mp h with h | h
          · rw [hb 61 h] at hblank
            cases hblank
          · exact hx h
        have hcut : cut 61 line = some (b ++ x, y ++ b') := by
          apply cut_iff.mpr
          refine ⟨?_, hbx⟩
          conv_lhs => rw [hsplit, hline]
          simp
        have hstart : ∀ c, x.head? = some c → (trim line).head? = some c := by
          intro c hc
          obtain ⟨x, rfl⟩ := List.head?_eq_some_iff.mp hc
          rw [hline]
          rfl
        let w := (y ++ b').takeWhile isBlank ++ dropComment ((y ++ b').dropWhile isBlank)
        have huncomment : uncommentLine line = b ++ x ++ 61 :: w := by
          unfold uncommentLine
          rw [hread]
          dsimp only
          rw [if_neg hk, hcut]
        have htrim : trim (uncommentLine line) = x ++ 61 :: w.rdropWhile isBlank := by
          rw [huncomment, List.append_assoc, trim_append_left hb,
            trim_middle hblank fun _ hc => key_head hline hc]
        rw [if_neg hk, ← value_uncommented hb' y]
        exact readLine_of_parts htrim hx (fun h => hhash (hstart 35 h))
          (fun h => hsemi (hstart 59 h)) (fun h => hk (trim_bracket h))

end

/-! ## Texts -/

def Setting.uncomment (s : Setting) : Setting :=
  { s with value := if s.key.head? = some 91 then s.value else uncommented s.value }

theorem isComment_skipped {line : Bytes} (h : isComment line = true) :
    readLine line = .skipped := by
  have hhead := of_decide_eq_true h
  unfold readLine
  dsimp only
  rw [if_pos (Or.inr hhead)]

theorem settingsFrom_uncomment (lines : List Bytes) (sect : Bytes) :
    settingsFrom ((lines.filter fun line => !isComment line).map uncommentLine) sect =
      (settingsFrom lines sect).map Setting.uncomment := by
  induction lines generalizing sect with
  | nil => rfl
  | cons line lines ih =>
      by_cases hcomment : isComment line = true
      · have hskip := isComment_skipped hcomment
        rw [List.filter_cons_of_neg (by simp [hcomment]), ih]
        simp only [settingsFrom, hskip]
      · rw [List.filter_cons_of_pos (by simp [hcomment]), List.map_cons]
        simp only [settingsFrom, readLine_uncommentLine]
        cases readLine line with
        | skipped => exact ih sect
        | header name => exact ih name
        | setting k v =>
            dsimp only
            rw [ih sect]
            rfl

theorem dropComment_subset (v : Bytes) : dropComment v ⊆ v := by
  induction v using dropComment.induct with
  | case1 c d t hcut =>
      rw [dropComment, if_pos hcut]
      exact List.nil_subset _
  | case2 c d t hgo ih =>
      rw [dropComment, if_neg hgo]
      exact List.cons_subset_cons c ih
  | case3 t hshort =>
      rw [dropComment]
      · exact List.Subset.refl t
      · exact hshort

theorem uncommentLine_subset (line : Bytes) : uncommentLine line ⊆ line := by
  unfold uncommentLine
  split
  · split
    · exact List.Subset.refl line
    · split
      · exact List.Subset.refl line
      · rename_i before after hcut
        obtain ⟨rfl, -⟩ := cut_iff.mp hcut
        have hafter : after.takeWhile isBlank ++ dropComment (after.dropWhile isBlank) ⊆ after := by
          apply List.append_subset.mpr
          constructor
          · exact (List.takeWhile_prefix _).subset
          · exact List.Subset.trans (dropComment_subset _) (List.dropWhile_suffix _).subset
        intro c hc
        rcases List.mem_append.mp hc with hc | hc
        · exact List.mem_append_left _ hc
        · apply List.mem_append_right
          rcases List.mem_cons.mp hc with rfl | hc
          · exact List.mem_cons_self
          · exact List.mem_cons_of_mem _ (hafter hc)
  · exact List.Subset.refl line

/-- The settings of a text without its comments are those of the text, each without its. -/
theorem settings_uncomment (text : Bytes) :
    settings (uncomment text) = (settings text).map Setting.uncomment := by
  have hlines := settingsFrom_uncomment (text.splitOn 10) []
  unfold settings uncomment
  rw [← hlines]
  by_cases hnone : ((text.splitOn 10).filter fun line => !isComment line).map uncommentLine = []
  · rw [hnone]
    rfl
  · rw [splitOn_unlines _ hnone]
    intro line hline
    obtain ⟨line', hline', rfl⟩ := List.mem_map.mp hline
    intro hmem
    exact newline_not_mem (List.mem_filter.mp hline').1 (uncommentLine_subset line' hmem)

theorem settingsFrom_trimmed {lines : List Bytes} {sect : Bytes} {s : Setting}
    (h : s ∈ settingsFrom lines sect) : trim s.value = s.value := by
  induction lines generalizing sect with
  | nil => cases h
  | cons line lines ih =>
      unfold settingsFrom at h
      cases hread : readLine line with
      | skipped =>
          rw [hread] at h
          exact ih h
      | header name =>
          rw [hread] at h
          exact ih h
      | setting k v =>
          rw [hread] at h
          rcases List.mem_cons.mp h with rfl | h
          · obtain ⟨_, y, -, -, -, rfl, -⟩ := readLine_setting hread
            exact trim_trim y
          · exact ih h

/-! ## Values -/

/-- A value with a comment is the value without it, blanks and the comment. -/
theorem commented_split {v : Bytes} (h : commented v = true) :
    ∃ b rest, v = dropComment v ++ b :: 35 :: rest ∧ isBlank b = true := by
  have hne := of_decide_eq_true h
  clear h
  induction v using dropComment.induct with
  | case1 c d t hcut =>
      obtain ⟨hc, rfl⟩ := hcut
      refine ⟨c, t, ?_, hc⟩
      rw [dropComment, if_pos ⟨hc, rfl⟩]
      rfl
  | case2 c d t hgo ih =>
      rw [dropComment, if_neg hgo] at hne ⊢
      have hrest : dropComment (d :: t) ≠ d :: t := fun heq => hne (by rw [heq])
      obtain ⟨b, rest, hsplit, hb⟩ := ih hrest
      exact ⟨b, rest, congrArg (c :: ·) hsplit, hb⟩
  | case3 t hshort =>
      rw [dropComment] at hne
      · exact absurd rfl hne
      · exact hshort

theorem uncommented_split {v : Bytes} (hv : trim v = v) :
    (commented v = false ∧ uncommented v = v) ∨
      (commented v = true ∧ ∃ bs rest, v = uncommented v ++ bs ++ 35 :: rest ∧ bs ≠ [] ∧
        ∀ b ∈ bs, isBlank b = true) := by
  cases h : commented v with
  | false =>
      have hsame : dropComment v = v := by
        by_contra hne
        have := decide_eq_true hne
        unfold commented at h
        rw [h] at this
        cases this
      refine Or.inl ⟨rfl, ?_⟩
      unfold uncommented
      rw [hsame, hv]
  | true =>
      obtain ⟨b, rest, hsplit, hb⟩ := commented_split h
      refine Or.inr ⟨rfl, ?_⟩
      obtain ⟨b₁, b₂, hdrop, hb₁, hb₂⟩ := trim_split (dropComment v)
      have hnone : b₁ = [] := by
        rcases trim_head v with hempty | ⟨c, t, hcons, hc⟩
        · rw [hv] at hempty
          rw [hempty] at hsplit
          simp [dropComment] at hsplit
        · by_contra hsome
          obtain ⟨d, b₃, rfl⟩ := List.exists_cons_of_ne_nil hsome
          rw [hv] at hcons
          rw [hdrop, hcons] at hsplit
          obtain ⟨rfl, -⟩ := List.cons.inj hsplit
          rw [hb₁ c List.mem_cons_self] at hc
          cases hc
      refine ⟨b₂ ++ [b], rest, ?_, by simp, ?_⟩
      · conv_lhs => rw [hsplit, hdrop, hnone]
        simp [uncommented]
      · intro c hc
        rcases List.mem_append.mp hc with hc | hc
        · exact hb₂ c hc
        · rw [List.mem_singleton.mp hc]
          exact hb

end Memflux.Core
