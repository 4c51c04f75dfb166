-- SUMMARY: Layouts are stable, and change neither the assembly nor the findings.
import ContractAsm.Layout
import ContractAsm.Lint
import ContractAsm.Proofs.Rewording

/-!
# Layout and meaning

Every line of a source is trimmed before anything else is done with it, by the assembler and by the
check of the syntax. So the blanks around the lines do not count: neither those that a layout puts
there, nor a carriage return in front of a line feed.
-/

namespace ContractAsm

/-! ## Blanks around a text -/

namespace Text

variable {t blanks : Text}

theorem trimEnd_append_blanks (h : ∀ c ∈ blanks, isBlank c = true) :
    trimEnd (t ++ blanks) = trimEnd t := by
  rw [trimEnd, List.reverse_append, List.dropWhile_append_of_pos (by simpa using h), trimEnd]

theorem trim_blanks_append (h : ∀ c ∈ blanks, isBlank c = true) : trim (blanks ++ t) = trim t := by
  rw [trim, trimStart, List.dropWhile_append_of_pos h, ← trimStart, ← trim]

theorem trimStart_append (h : trim t ≠ []) (rest : Text) :
    trimStart (t ++ rest) = trimStart t ++ rest := by
  have hne : (t.dropWhile isBlank).isEmpty = false := by
    rwa [List.isEmpty_eq_false_iff, Ne, List.dropWhile_eq_nil_iff, ← trim_eq_nil_iff]
  rw [trimStart, List.dropWhile_append, hne]
  rfl

theorem trim_append_blanks (h : ∀ c ∈ blanks, isBlank c = true) : trim (t ++ blanks) = trim t := by
  by_cases hblank : trim t = []
  · rw [trim_blanks_append (trim_eq_nil_iff.1 hblank), trim_eq_nil_iff.2 h, hblank]
  · rw [trim, trimStart_append hblank, trimEnd_append_blanks h, ← trim]

theorem exists_blanks_trimEnd (t : Text) :
    ∃ blanks, t = trimEnd t ++ blanks ∧ ∀ c ∈ blanks, isBlank c = true := by
  refine ⟨(t.reverse.takeWhile isBlank).reverse, ?_, ?_⟩
  · rw [trimEnd, ← List.reverse_append, List.takeWhile_append_dropWhile, List.reverse_reverse]
  · exact fun c hc => List.mem_takeWhile_imp (List.mem_reverse.1 hc)

/-- Trimming takes nothing but blanks away. -/
theorem exists_blanks_trim (t : Text) : ∃ before after, t = before ++ (trim t ++ after)
    ∧ (∀ c ∈ before, isBlank c = true) ∧ ∀ c ∈ after, isBlank c = true :=
  exists_surround isBlank t

@[simp] theorem trim_trim (t : Text) : trim (trim t) = trim t := by
  obtain ⟨before, after, ht, hbefore, hafter⟩ := exists_blanks_trim t
  conv_rhs => rw [ht, trim_blanks_append hbefore, trim_append_blanks hafter]

/-! ## Line ends -/

/-- The text with a carriage return in front of every line feed. -/
def withCarriageReturns (t : Text) : Text :=
  t.flatMap fun c => if c = '\n' then ['\r', '\n'] else [c]

theorem lines_ne_nil (t : Text) : lines t ≠ [] :=
  List.splitOn_ne_nil '\n' t

theorem lines_cons_newline (t : Text) : lines ('\n' :: t) = [] :: lines t := by
  rw [lines, List.splitOn_cons_eq_if_modifyHead, if_pos (by simp)]
  rfl

theorem lines_cons_of_ne {c : Char} (hc : c ≠ '\n') (t : Text) :
    lines (c :: t) = (lines t).modifyHead (c :: ·) := by
  rw [lines, List.splitOn_cons_eq_if_modifyHead, if_neg (by simpa using hc)]
  rfl

/-- A carriage return in front of a line feed stands at the end of a line. -/
theorem lines_withCarriageReturns (t : Text) :
    List.Forall₂ (fun line line' => line' = line ∨ line' = line ++ ['\r'])
      (lines t) (lines (withCarriageReturns t)) := by
  induction t with
  | nil => exact .cons (.inl rfl) .nil
  | cons c t ih =>
    by_cases hc : c = '\n'
    · have hreturns : withCarriageReturns (c :: t) = '\r' :: '\n' :: withCarriageReturns t := by
        simp [withCarriageReturns, hc]
      rw [hreturns, hc, lines_cons_newline, lines_cons_of_ne (by decide), lines_cons_newline]
      exact .cons (.inr rfl) ih
    · have hreturns : withCarriageReturns (c :: t) = c :: withCarriageReturns t := by
        simp [withCarriageReturns, hc]
      rw [hreturns, lines_cons_of_ne hc, lines_cons_of_ne hc]
      generalize lines t = ls, lines (withCarriageReturns t) = ls' at ih ⊢
      cases ih with
      | nil => exact .nil
      | @cons line line' rest rest' hline hrest =>
        refine .cons ?_ hrest
        rcases hline with rfl | rfl
        · exact .inl rfl
        · exact .inr rfl

theorem map_trim_withCarriageReturns (t : Text) :
    (lines (withCarriageReturns t)).map trim = (lines t).map trim := by
  have hreturn : ∀ c ∈ ['\r'], isBlank c = true := List.forall_mem_singleton.2 (by decide)
  have hlines := lines_withCarriageReturns t
  generalize lines t = ls, lines (withCarriageReturns t) = ls' at hlines ⊢
  induction hlines with
  | nil => rfl
  | cons hline _ ih =>
    rw [List.map_cons, List.map_cons, ih]
    rcases hline with rfl | rfl
    · rfl
    · rw [trim_append_blanks hreturn]

end Text

open Text

/-! ## Layouts -/

namespace Layout

theorem formatLine_eq (indent line : Text) :
    formatLine indent line = trim line ∨ formatLine indent line = indent ++ trim line := by
  unfold formatLine
  simp only
  split
  · exact .inl rfl
  · split
    · next hnil => exact .inl hnil.symm
    · split
      · exact .inl rfl
      · exact .inr rfl

variable {indent : Text}

theorem trim_formatLine (h : ∀ c ∈ indent, isBlank c = true) (line : Text) :
    trim (formatLine indent line) = trim line := by
  rcases formatLine_eq indent line with hline | hline
  · rw [hline, trim_trim]
  · rw [hline, trim_blanks_append h, trim_trim]

theorem newline_not_mem_formatLine (h : '\n' ∉ indent) {line : Text} (hline : '\n' ∉ line) :
    '\n' ∉ formatLine indent line := by
  have htrim : '\n' ∉ trim line := fun hmem => hline (mem_of_mem_trim hmem)
  rcases formatLine_eq indent line with heq | heq
  · rwa [heq]
  · rw [heq, List.mem_append]
    exact not_or_intro h htrim

theorem lines_format (h : '\n' ∉ indent) (source : Text) :
    lines (format indent source) = (lines source).map (formatLine indent) := by
  apply lines_ofLines
  · simpa using lines_ne_nil source
  · intro line hline
    obtain ⟨raw, hraw, rfl⟩ := List.mem_map.1 hline
    exact newline_not_mem_formatLine h (newline_not_mem_line hraw)

end Layout

/-! ## Trimmed lines -/

namespace Listing

variable {filename : String} {p : Progress} {n : Nat}

theorem addLine_trim [Platform] (raw : Text) : p.addLine filename n
    (trim raw) = p.addLine filename n raw := by
  simp only [Progress.addLine, trim_trim]

theorem checkLine_trim [Platform] (raw : Text) : checkLine (trim raw) = checkLine raw := by
  rw [checkLine, checkLine, hashed, hashed, trim_trim]

theorem addLines_map_trim [Platform] (ls : List Text) :
    p.addLines filename n (ls.map trim) = p.addLines filename n ls := by
  induction ls generalizing p n with
  | nil => rfl
  | cons raw ls ih => simp only [List.map_cons, Progress.addLines, checkLine_trim, addLine_trim, ih]

end Listing

theorem Lint.checkLines_map_trim (ls : List Text) (n : Nat) :
    checkLines n (ls.map trim) = checkLines n ls := by
  induction ls generalizing n with
  | nil => rfl
  | cons raw ls ih => simp only [List.map_cons, checkLines, trim_trim, ih]

/-- Two sources with the same trimmed lines are assembled and checked alike. -/
theorem assemble_eq_of_map_trim [Platform] {source source' : Text}
    (h : (lines source).map trim = (lines source').map trim) (verbose : Bool) (filename : String) :
    assemble verbose filename source = assemble verbose filename source'
      ∧ Lint.check source = Lint.check source' := by
  have hlisting : Listing.ofSource filename source = Listing.ofSource filename source' := by
    rw [Listing.ofSource, Listing.ofSource, ← Listing.addLines_map_trim, h,
      Listing.addLines_map_trim]
  constructor
  · rw [assemble, assemble, Assembly.ofSource, Assembly.ofSource, hlisting]
  · rw [Lint.check, Lint.check, ← Lint.checkLines_map_trim, h, Lint.checkLines_map_trim]

/-- Neither a layout whose indentation is blank nor carriage returns in front of the line feeds
change what a source is assembled to, the message and the reports included, or what the check of its
syntax finds. -/
theorem assemble_format [Platform] (verbose : Bool) (filename : String) (source indent : Text)
    (hindent : ∀ c ∈ indent, isBlank c = true ∧ c ≠ '\n') :
    (assemble verbose filename (Layout.format indent source) = assemble verbose filename source
      ∧ Lint.check (Layout.format indent source) = Lint.check source)
    ∧ assemble verbose filename (withCarriageReturns source) = assemble verbose filename source
      ∧ Lint.check (withCarriageReturns source) = Lint.check source := by
  have hnewline : '\n' ∉ indent := fun hmem => (hindent _ hmem).2 rfl
  have hformat : (lines (Layout.format indent source)).map trim = (lines source).map trim := by
    rw [Layout.lines_format hnewline, List.map_map]
    exact List.map_congr_left fun line _ =>
      Layout.trim_formatLine (fun c hc => (hindent c hc).1) line
  exact ⟨assemble_eq_of_map_trim hformat verbose filename,
    assemble_eq_of_map_trim (map_trim_withCarriageReturns source) verbose filename⟩

/-- Lines that are indented at random. The last one has a reference without a location, and a quote
that is not closed. -/
def ragged : Text :=
  ofLines ["  define top . ".toList, "\tIF gi0,.top, ; back".toList, [], "   ; note".toList,
    "EVAL8 \"a,\\x,  ".toList]

theorem assemble_format_ragged :
    Layout.format "\t ".toList ragged
      = "define top .\n\t IF gi0,.top, ; back\n\n; note\n\t EVAL8 \"a,\\x,".toList
    ∧ assemble false "main.asm" (Layout.format "\t ".toList ragged)
      = assemble false "main.asm" ragged
    ∧ Lint.check (Layout.format "\t ".toList ragged) = [⟨5, .quotes⟩]
    ∧ assemble false "main.asm" (withCarriageReturns ragged)
      = assemble false "main.asm" ragged := by
  obtain ⟨⟨hformat, hcheck⟩, hreturns, -⟩ :=
    assemble_format false "main.asm" ragged "\t ".toList (by simp [isBlank])
  refine ⟨by decide +kernel, hformat, ?_, hreturns⟩
  rw [hcheck]
  decide +kernel

end ContractAsm
