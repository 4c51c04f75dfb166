-- SUMMARY: Which lines a layout puts at the margin.
import ContractAsm.Proofs.Comment
import ContractAsm.Proofs.Selector

/-!
# Lines at the margin

A layout sees the trimmed lines only, and trimming a line that is laid out gives the line it was
made from. So a second layout changes nothing.

Layout and assembler tell define statements from others each in its own way. The layout asks for the
keyword and a space, on the line as it is written. The assembler asks for the keyword and any blank,
once the comment is gone. The two part where the blank is no space, and where a comment follows it.
-/

namespace ContractAsm

open Text

/-- A text has one line more than it has line feeds. -/
theorem Text.length_lines (t : Text) : (lines t).length = t.count '\n' + 1 :=
  length_splitOn '\n' t

/-! ## Two layouts -/

namespace Layout

variable {indent line : Text}

theorem formatLine_congr {line' : Text} (h : trim line = trim line') :
    formatLine indent line = formatLine indent line' := by
  simp only [formatLine, h]

theorem formatLine_formatLine (h : ∀ c ∈ indent, isBlank c = true) (line : Text) :
    formatLine indent (formatLine indent line) = formatLine indent line :=
  formatLine_congr (trim_formatLine h line)

/-- With a blank indentation, a second layout changes nothing. A layout keeps the line feeds, and
each of its lines is the trimmed line of the source, which may be indented. -/
theorem format_format (indent source : Text)
    (hindent : ∀ c ∈ indent, isBlank c = true ∧ c ≠ '\n') :
    format indent (format indent source) = format indent source
    ∧ (format indent source).count '\n' = source.count '\n'
    ∧ List.Forall₂ (fun line laid => trim laid = trim line
        ∧ (laid = trim line ∨ laid = indent ++ trim line))
      (lines source) (lines (format indent source)) := by
  have hblank : ∀ c ∈ indent, isBlank c = true := fun c hc => (hindent c hc).1
  have hlines : lines (format indent source) = (lines source).map (formatLine indent) :=
    lines_format (fun hmem => (hindent _ hmem).2 rfl) source
  refine ⟨?_, ?_, ?_⟩
  · rw [format, hlines, List.map_map, format]
    exact congrArg ofLines (List.map_congr_left fun line _ => formatLine_formatLine hblank line)
  · have hlength : (lines (format indent source)).length = (lines source).length := by
      rw [hlines, List.length_map]
    rw [length_lines, length_lines] at hlength
    omega
  · rw [hlines, List.forall₂_map_right_iff, List.forall₂_same]
    exact fun line _ => ⟨trim_formatLine hblank line, formatLine_eq indent line⟩

/-- Blanks of several scripts, a keyword alone on its line, a label, and carriage returns. -/
def foreignBlanks : Text :=
  "\u00a0define top .\r\n\tdefine\n\u2003loop:\r\n\u2003EVAL8 1,\n\n\u00a0; note".toList

theorem format_format_foreignBlanks :
    format ['\u3000'] (format ['\u3000'] foreignBlanks) = format ['\u3000'] foreignBlanks
    ∧ (format ['\u3000'] foreignBlanks).count '\n' = 5
    ∧ format ['\u3000'] foreignBlanks
      = "define top .\n\u3000define\nloop:\n\u3000EVAL8 1,\n\n; note".toList := by
  have hindent : ∀ c ∈ ['\u3000'], isBlank c = true ∧ c ≠ '\n' := by
    simp [isBlank]
  obtain ⟨htwice, hcount, -⟩ := format_format ['\u3000'] foreignBlanks hindent
  exact ⟨htwice, hcount.trans (by decide +kernel), by decide +kernel⟩

end Layout

/-! ## Keywords of definitions -/

/-- A text without line feeds is a define statement just if it has the keyword and a blank in
front. -/
theorem defineOperands?_isSome_iff {t : Text} (h : '\n' ∉ t) : (defineOperands? t).isSome = true
    ↔ ∃ c, isBlank c = true ∧ "define".toList ++ [c] <+: t := by
  have hoperands : ∀ u : Text, (∀ c ∈ u, c ∈ t) → '\n' ∉ (splitFinalNewline (trimStart u)).1 := by
    intro u hu hmem
    unfold splitFinalNewline at hmem
    refine h (hu _ ((List.dropWhile_sublist isBlank).subset ?_))
    split at hmem
    · exact List.dropLast_subset _ hmem
    · exact hmem
  unfold defineOperands?
  split
  · next c rest hrest =>
    rw [List.isPrefixOf?_eq_some_iff_append_eq] at hrest
    have hfinal := hoperands rest (by simp +contextual [← hrest])
    rw [trimStart] at hfinal
    subst hrest
    simp only [hfinal, if_false, List.prefix_append_right_inj, List.cons_prefix_cons,
      List.nil_prefix, and_true, exists_eq_right]
    split
    · next hblank => simp [hblank]
    · next hblank => simp [hblank]
  · next hnone =>
    refine iff_of_false (by simp) ?_
    rintro ⟨c, -, rest, rfl⟩
    refine hnone c rest ?_
    rw [List.isPrefixOf?_eq_some_iff_append_eq]
    simp

/-- What a text starts with stays when its end is trimmed, if that ends with no blank. -/
theorem Text.isPrefix_trimEnd {p t : Text} {d : Char} (hd : isBlank d = false)
    (hp : p ++ [d] <+: t) : p ++ [d] <+: trimEnd t := by
  obtain ⟨blanks, hblanks, hall⟩ := exists_blanks_trimEnd t
  obtain ⟨rest, hrest⟩ := hp
  rw [hblanks] at hrest
  rcases List.append_eq_append_iff.1 hrest with ⟨s, hs, -⟩ | ⟨s, hs, hspan⟩
  · exact ⟨s, hs.symm⟩
  · rcases List.eq_nil_or_concat s with rfl | ⟨s, e, rfl⟩
    · exact ⟨[], by simp [hs]⟩
    · -- the last character would be one of the blanks
      obtain ⟨-, rfl⟩ : p = trimEnd t ++ s ∧ d = e := by simpa [← List.append_assoc] using hs
      cases hd.symm.trans (hall d (by simp [hspan]))

namespace Listing

variable {line : Text}

/-- What a line starts with stays without the comment, if that ends with no blank. -/
theorem isPrefix_stripComment {p t : Text} {d : Char} (hline : '\n' ∉ t) (hp : p ++ [d] <+: t)
    (hd : isBlank d = false) (hcomment : ';' ∉ p ++ [d]) : p ++ [d] <+: stripComment t := by
  rw [stripComment_of_oneLine hline]
  split
  · refine isPrefix_trimEnd hd ?_
    obtain ⟨rest, rfl⟩ := hp
    have hpass : ∀ c ∈ p ++ [d], (c != ';') = true := by
      intro c hc
      simpa using fun heq : c = ';' => hcomment (heq ▸ hc)
    rw [List.takeWhile_append_of_pos hpass]
    exact List.prefix_append _ _
  · exact hp

theorem stripComment_ne_nil (hline : '\n' ∉ line) (h : StartsCode line) :
    stripComment (trim line) ≠ [] := by
  obtain ⟨c, cs, hcs, hc⟩ := flush_trim h.nonblank
  have hsemicolon : ';' ∉ [] ++ [c] := by
    have hhead := h.head
    rw [hcs] at hhead
    simpa [eq_comm] using hhead
  have hfront := isPrefix_stripComment (p := []) (fun hmem => hline (mem_of_mem_trim hmem))
    ⟨cs, by simp [hcs]⟩ hc hsemicolon
  exact fun hnil => by simp [hnil] at hfront

theorem semicolon_not_mem_keyword {blanks : Text} (h : ∀ c ∈ blanks, isBlank c = true) :
    ';' ∉ "define".toList ++ blanks := by
  intro hmem
  rcases List.mem_append.1 hmem with hmem | hmem
  · revert hmem
    decide
  · cases h _ hmem

/-- The keyword and the blank behind it stay without the comment, unless the comment starts right
behind the blanks. -/
theorem isPrefix_stripComment_iff (hline : '\n' ∉ line) {c : Char} (hc : isBlank c = true) :
    "define".toList ++ [c] <+: stripComment (trim line)
      ↔ ∃ rest, trim line = "define".toList ++ c :: rest ∧ (trimStart rest).head? ≠ some ';' := by
  have htrim : '\n' ∉ trim line := fun hmem => hline (mem_of_mem_trim hmem)
  have hblanks : ∀ rest : Text, ∀ b ∈ c :: rest.takeWhile isBlank, isBlank b = true :=
    fun rest => List.forall_mem_cons.2 ⟨hc, fun b hb => List.mem_takeWhile_imp hb⟩
  constructor
  · intro hprefix
    obtain ⟨comment, hcomment⟩ := Source.exists_stripComment_append htrim
    obtain ⟨rest, hrest⟩ : "define".toList ++ [c] <+: trim line := by
      rw [hcomment]
      exact hprefix.trans (List.prefix_append _ _)
    refine ⟨rest, by simp [← hrest], fun hhead => ?_⟩
    obtain ⟨text, htext⟩ := List.head?_eq_some_iff.1 hhead
    have hsplit : trim line = ("define".toList ++ c :: rest.takeWhile isBlank) ++ ';' :: text := by
      rw [← hrest, ← htext, trimStart]
      simp
    -- without the comment nothing but the keyword is left
    have hkeyword : stripComment (trim line) = "define".toList := by
      rw [stripComment_of_oneLine htrim, hsplit, if_pos (by simp),
        takeWhile_semicolon (semicolon_not_mem_keyword (hblanks rest)),
        trimEnd_append_blanks (hblanks rest)]
      decide
    rw [hkeyword] at hprefix
    simpa using hprefix.length_le
  · rintro ⟨rest, hrest, hhead⟩
    -- a trimmed line does not end with blanks
    have hne : trimStart rest ≠ [] := by
      intro hnil
      have hall : ∀ b ∈ c :: rest, isBlank b = true :=
        List.forall_mem_cons.2 ⟨hc, List.dropWhile_eq_nil_iff.1 hnil⟩
      have hkeyword := trim_trim line
      rw [hrest, trim_append_blanks hall] at hkeyword
      simpa [trim, trimStart, trimEnd, isBlank] using congrArg List.length hkeyword
    obtain ⟨d, ds, hds, hd⟩ := flush_trimStart hne
    have hsplit : ("define".toList ++ c :: rest.takeWhile isBlank) ++ [d] <+: trim line := by
      refine ⟨ds, ?_⟩
      rw [hrest]
      simp [← hds, trimStart]
    have hfront : ';' ∉ ("define".toList ++ c :: rest.takeWhile isBlank) ++ [d] := by
      have hcomment : ';' ≠ d := by simpa [hds, eq_comm] using hhead
      intro hmem
      rcases List.mem_append.1 hmem with hmem | hmem
      · exact semicolon_not_mem_keyword (hblanks rest) hmem
      · exact hcomment (List.mem_singleton.1 hmem)
    have hkeyword : "define".toList ++ [c]
        <+: ("define".toList ++ c :: rest.takeWhile isBlank) ++ [d] :=
      ⟨rest.takeWhile isBlank ++ [d], by simp⟩
    exact hkeyword.trans (isPrefix_stripComment htrim hsplit hd hfront)

end Listing

/-! ## Layout and assembler -/

namespace Layout

variable {indent line : Text}

/-- A label is the name and its colon, and nothing else. -/
theorem isBlank_of_mem_label {t : Text} (h : isLabel t = true) {c : Char} (hc : c ∈ t) :
    isBlank c = false := by
  unfold isLabel at h
  split at h
  · next name hname =>
    have hword := (Bool.and_eq_true_iff.1 h).1
    rw [← List.mem_reverse, hname] at hc
    rcases List.mem_cons.1 hc with rfl | hc
    · decide
    · exact isBlank_of_isWordChar (List.all_eq_true.1 hword c hc)
  · cases h

/-- What a layout leaves at the margin: a line with the keyword and a space in front, or a label. -/
theorem flush_formatLine_iff (hindent : ∀ c ∈ indent, isBlank c = true) (hne : indent ≠ [])
    (h : StartsCode line) : Flush (formatLine indent line)
      ↔ "define".toList ++ [' '] <+: trim line ∨ isLabel (trim line) = true := by
  obtain ⟨c, cs, hcs, hc⟩ := flush_trim h.nonblank
  have hsemicolon : c ≠ ';' := by
    have hhead := h.head
    rw [hcs] at hhead
    simpa using hhead
  obtain ⟨b, bs, rfl⟩ := List.exists_cons_of_ne_nil hne
  have hb := hindent b (List.mem_cons_self ..)
  have hmargin : Flush (trim line) := ⟨c, cs, hcs, hc⟩
  have hindented : ¬ Flush ((b :: bs) ++ trim line) := by
    rintro ⟨d, ds, hds, hd⟩
    obtain ⟨rfl, -⟩ := List.cons.inj hds
    cases hd.symm.trans hb
  have hkeyword : "define".toList ++ [' '] = "define ".toList := rfl
  rw [hkeyword, ← List.isPrefixOf_iff_prefix, ← Bool.or_eq_true]
  unfold formatLine
  simp only
  split
  · next hcond => exact iff_of_true hmargin hcond
  · next hcond =>
    refine iff_of_false ?_ hcond
    rw [hcs] at hindented ⊢
    simpa only [hsemicolon, if_false] using hindented

/-- The keyword of a definition at the start of a line has a space behind it, unless a comment
follows; then it has another blank. -/
def Spaced (line : Text) : Prop :=
  ∀ c rest, trim line = "define".toList ++ c :: rest → isBlank c = true →
    (c = ' ' ↔ (trimStart rest).head? ≠ some ';')

end Layout

namespace Listing

/-- A line without references is added with its comment removed and its selectors expanded. -/
theorem addLine_of_startsCode [Platform] {line : Text} (hline : '\n' ∉ line) (h : StartsCode line)
    (hbackslash : '\\' ∉ trim line) (filename : String) (p : Progress) (n : Nat) :
    p.addLine filename n line
      = p.addStatement n (Literal.expandSelectors (stripComment (trim line))) := by
  have hdirective := Directive.isDirective_of_head h.head
  have hcode : Source.code? line = some (Literal.expandSelectors (stripComment (trim line))) := by
    rw [Source.code?, hdirective, if_neg (stripComment_ne_nil hline h)]
    rfl
  have hreference : '\\' ∉ Literal.expandSelectors (stripComment (trim line)) := by
    intro hmem
    obtain ⟨comment, hcomment⟩ :=
      Source.exists_stripComment_append fun hmem => hline (mem_of_mem_trim hmem)
    rcases (Literal.reworded_expandSelectors _).chars _ hmem with hmem | hword
    · exact hbackslash (hcomment ▸ List.mem_append_left comment hmem)
    · cases hword
  rw [Source.addLine_of_code? hcode, Variable.resolve_eq_pure _ hreference, pure_bind]

/-- The assembler takes a line for a define statement just if the keyword, a blank, and something
other than a comment come first. -/
theorem defineOperands?_line_iff {line : Text} (hline : '\n' ∉ line) :
    (defineOperands? (Literal.expandSelectors (stripComment (trim line)))).isSome = true
      ↔ ∃ c rest, trim line = "define".toList ++ c :: rest ∧ isBlank c = true
        ∧ (trimStart rest).head? ≠ some ';' := by
  have hstrip : '\n' ∉ stripComment (trim line) := by
    intro hmem
    obtain ⟨comment, hcomment⟩ :=
      Source.exists_stripComment_append fun hmem => hline (mem_of_mem_trim hmem)
    exact hline (mem_of_mem_trim (hcomment ▸ List.mem_append_left comment hmem))
  have hkeyword : ∀ c, isBlank c = true →
      ("define".toList ++ [c] <+: Literal.expandSelectors (stripComment (trim line))
        ↔ "define".toList ++ [c] <+: stripComment (trim line)) := by
    intro c hc
    have hnames : ∀ x ∈ "aAx".toList, x ∉ "define".toList ∧ isBlank x = false := by
      simp [isBlank]
    refine Literal.isPrefix_expandSelectors_iff fun x hx hmem => ?_
    obtain ⟨hletter, hblank⟩ := hnames x hx
    rcases List.mem_append.1 hmem with hmem | hmem
    · exact hletter hmem
    · rw [List.mem_singleton.1 hmem, hc] at hblank
      cases hblank
  rw [defineOperands?_isSome_iff ((Literal.reworded_expandSelectors _).newline_not_mem hstrip)]
  constructor
  · rintro ⟨c, hc, hprefix⟩
    obtain ⟨rest, hrest, hhead⟩ :=
      (isPrefix_stripComment_iff hline hc).1 ((hkeyword c hc).1 hprefix)
    exact ⟨c, rest, hrest, hc, hhead⟩
  · rintro ⟨c, rest, hrest, hc, hhead⟩
    exact ⟨c, hc, (hkeyword c hc).2 ((isPrefix_stripComment_iff hline hc).2 ⟨rest, hrest, hhead⟩)⟩

end Listing

namespace Layout

open Listing

/-- A line of code without references is added to a listing as one text. A layout leaves the line at
the margin just if that text is a define statement or the line is a label, exactly as long as the
keyword is spaced. -/
theorem flush_formatLine_iff_define [Platform] (indent line : Text)
    (hindent : ∀ c ∈ indent, isBlank c = true) (hne : indent ≠ []) (hline : '\n' ∉ line)
    (hcode : StartsCode line) (hbackslash : '\\' ∉ trim line) :
    ∃ text, text = Literal.expandSelectors (stripComment (trim line))
      ∧ (∀ filename (p : Progress) n, p.addLine filename n line = p.addStatement n text)
      ∧ ((Flush (formatLine indent line)
          ↔ (defineOperands? text).isSome = true ∨ isLabel (trim line) = true) ↔ Spaced line) := by
  refine ⟨_, rfl, addLine_of_startsCode hline hcode hbackslash, ?_⟩
  rw [flush_formatLine_iff hindent hne hcode, defineOperands?_line_iff hline]
  by_cases hkeyword : ∃ c rest, trim line = "define".toList ++ c :: rest ∧ isBlank c = true
  · obtain ⟨c, rest, hrest, hc⟩ := hkeyword
    have hlabel : isLabel (trim line) = false := by
      refine Bool.eq_false_iff.2 fun hlabel => ?_
      cases hc.symm.trans (isBlank_of_mem_label hlabel (c := c) (by simp [hrest]))
    have hspace : "define".toList ++ [' '] <+: trim line ↔ c = ' ' := by
      rw [hrest, List.prefix_append_right_inj, List.cons_prefix_cons, eq_comm]
      simp
    have hdefine : (∃ c rest, trim line = "define".toList ++ c :: rest ∧ isBlank c = true
        ∧ (trimStart rest).head? ≠ some ';') ↔ (trimStart rest).head? ≠ some ';' := by
      simp [hrest, hc]
    have hspaced : Spaced line ↔ (c = ' ' ↔ (trimStart rest).head? ≠ some ';') := by
      simp [Spaced, hrest, hc]
    rw [hspace, hdefine, hspaced, hlabel]
    simp
  · -- neither of them sees the keyword, and a label is at the margin for both
    have hspace : ¬ "define".toList ++ [' '] <+: trim line := by
      rintro ⟨rest, hrest⟩
      exact hkeyword ⟨' ', rest, by simp [← hrest], by decide⟩
    have hdefine : ¬ ∃ c rest, trim line = "define".toList ++ c :: rest ∧ isBlank c = true
        ∧ (trimStart rest).head? ≠ some ';' :=
      fun ⟨c, rest, hrest, hc, _⟩ => hkeyword ⟨c, rest, hrest, hc⟩
    have hspaced : Spaced line := fun c rest hrest hc => absurd ⟨c, rest, hrest, hc⟩ hkeyword
    simp only [hspace, hdefine, hspaced]

/-- A definition with a tab and a space in front, and a comment behind. -/
def defineIndented : Text :=
  "\t define SIZE abi(\"f\") ; define".toList

theorem flush_formatLine_iff_define_indented :
    StartsCode defineIndented ∧ Spaced defineIndented
    ∧ (Flush (formatLine "  ".toList defineIndented)
      ↔ (defineOperands?
          (Literal.expandSelectors (stripComment (trim defineIndented)))).isSome = true
        ∨ isLabel (trim defineIndented) = true) := by
  have hcode : StartsCode defineIndented := ⟨by decide, by decide⟩
  have htrim : trim defineIndented
      = "define".toList ++ ' ' :: "SIZE abi(\"f\") ; define".toList := by decide
  have hspaced : Spaced defineIndented := by
    intro c rest hrest _
    rw [htrim] at hrest
    obtain ⟨rfl, rfl⟩ := List.cons.inj (List.append_cancel_left hrest)
    decide
  obtain ⟨text, rfl, -, hiff⟩ := flush_formatLine_iff_define "  ".toList defineIndented
    (by simp [isBlank]) (by simp) (by decide) hcode (by decide)
  exact ⟨hcode, hspaced, hiff.2 hspaced⟩

/-- A definition with a tab behind its keyword. -/
def defineTabbed : Text :=
  "define\tSIZE 32".toList

theorem indents_defineTabbed :
    StartsCode defineTabbed ∧ '\n' ∉ defineTabbed ∧ '\\' ∉ trim defineTabbed
    ∧ formatLine "  ".toList defineTabbed = "  define\tSIZE 32".toList
    ∧ ¬ Flush (formatLine "  ".toList defineTabbed)
    ∧ defineOperands? (Literal.expandSelectors (stripComment (trim defineTabbed)))
      = some "SIZE 32".toList := by
  have hformat : formatLine "  ".toList defineTabbed = "  define\tSIZE 32".toList := by decide
  refine ⟨⟨by decide, by decide⟩, by decide, by decide, hformat, ?_, by decide⟩
  rw [hformat]
  rintro ⟨c, cs, hcs, hc⟩
  obtain ⟨rfl, -⟩ := List.cons.inj hcs
  cases hc

end Layout

end ContractAsm
