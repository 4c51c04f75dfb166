-- SUMMARY: What the check of the syntax finds in joined sources.
import ContractAsm.Proofs.ErrorColumn

/-!
# Findings of a source

The check of the syntax goes line by line, so the findings of two sources put together are those of
both, and a line is judged by itself. It asks of every backslash of a line whether a reference
starts there. As no reference holds a second backslash, this comes to counting: a line passes just
if it has as many references as backslashes.
-/

namespace ContractAsm

open Text

/-! ## Counting references -/

namespace Variable

variable {t : Text}

/-- A reference starts with a backslash, and what a scan skips behind it is the name and the
comma. -/
theorem backslash_of_reference {before : Option Char} {c : Char} {found : Text × Nat}
    (h : reference before (c :: t) = some found) : c = '\\' ∧ '\\' ∉ t.take (found.2 - 1) := by
  obtain ⟨hname, hlength, tail, htail⟩ := reference_eq_some h
  obtain ⟨hc, ht⟩ : c = '\\' ∧ t = (found.1 ++ [',']) ++ tail := List.cons.inj htail
  have hskipped : found.2 - 1 = (found.1 ++ [',']).length := by simp [hlength, token]
  refine ⟨hc, ?_⟩
  rw [ht, hskipped, List.take_left' rfl]
  exact backslash_not_mem_name hname

/-- A backslash is the first character of a reference, or it is copied. -/
theorem count_backslash_scanFrom (skip n : Nat) (before : Option Char)
    (hskip : '\\' ∉ t.take skip) : t.count '\\'
    = ((scanFrom reference skip n before t).filterMap fun
        | .char _ => none
        | .found start name => some (start, name)).length
      + (scanFrom reference skip n before t).count (.char '\\') := by
  induction t generalizing skip n before with
  | nil => rfl
  | cons c t ih =>
    cases skip with
    | succ k =>
      obtain ⟨hc, hk⟩ := List.ne_and_not_mem_of_not_mem_cons hskip
      rw [List.count_cons_of_ne hc.symm, scanFrom]
      exact ih k (n + 1) (some c) hk
    | zero =>
      rw [scanFrom]
      cases hreference : reference before (c :: t) with
      | none =>
        have hrest := ih 0 (n + 1) (some c) (by simp)
        by_cases hc : c = '\\'
        · simp only [hc, List.count_cons_self, List.filterMap_cons] at hrest ⊢
          omega
        · simpa [hc] using hrest
      | some found =>
        obtain ⟨rfl, hskipped⟩ := backslash_of_reference hreference
        have hrest := ih (found.2 - 1) (n + 1) (some '\\') hskipped
        simp only [List.count_cons_self, List.filterMap_cons, List.length_cons, ne_eq, reduceCtorEq,
          not_false_eq_true, List.count_cons_of_ne] at hrest ⊢
        omega

/-- The backslashes that a scan copies are those that start no reference. -/
theorem referring_iff_scanFrom (skip n : Nat) (before : Option Char)
    (hskip : '\\' ∉ t.take skip) :
    Referring t ↔ .char '\\' ∉ scanFrom reference skip n before t := by
  refine ⟨fun h => backslash_not_mem_scanFrom h skip n before, ?_⟩
  induction t generalizing skip n before with
  | nil => exact fun _ => referring_nil
  | cons c t ih =>
    intro hscan
    cases skip with
    | succ k =>
      obtain ⟨hc, hk⟩ := List.ne_and_not_mem_of_not_mem_cons hskip
      exact referring_cons_iff.2 ⟨fun heq => absurd heq.symm hc, ih k (n + 1) (some c) hk hscan⟩
    | zero =>
      rw [scanFrom] at hscan
      cases hreference : reference before (c :: t) with
      | none =>
        rw [hreference] at hscan
        obtain ⟨hc, hrest⟩ := List.ne_and_not_mem_of_not_mem_cons hscan
        exact referring_cons_iff.2 ⟨fun heq => absurd (by rw [heq]) hc, ih 0 _ _ (by simp) hrest⟩
      | some found =>
        rw [hreference] at hscan
        obtain ⟨rfl, hskipped⟩ := backslash_of_reference hreference
        have hstarts := (reference_backslash_isSome_iff before).1 (by rw [hreference]; rfl)
        have hrest := ih _ _ _ hskipped (List.not_mem_of_not_mem_cons hscan)
        exact referring_cons_iff.2 ⟨fun _ => hstarts, hrest⟩

/-- Every backslash starts a reference just if there are as many references as backslashes. -/
theorem referring_iff_count (t : Text) : Referring t ↔ t.count '\\' = (references t).length := by
  have hskip : '\\' ∉ t.take 0 := by simp
  rw [referring_iff_scanFrom 0 0 none hskip, count_backslash_scanFrom 0 0 none hskip,
    ← List.count_eq_zero]
  exact Nat.add_eq_left.symm

end Variable

/-! ## Findings -/

namespace Lint

variable {source raw : Text} {p : Problem} {n i : Nat}

/-- The finding, as many lines further down. -/
def Finding.below (f : Finding) (count : Nat) : Finding :=
  { f with line := f.line + count }

def messages (source : Text) : List String :=
  (check source).map Finding.message

theorem Problem.message_injective : Function.Injective Problem.message := by
  intro p q h
  cases p <;> cases q <;> simp_all [Problem.message]

/-- Different findings are shown differently: the number of the line ends at the colon. -/
theorem Finding.message_injective : Function.Injective Finding.message := by
  rintro ⟨m, p⟩ ⟨n, q⟩ h
  have htoList : ∀ (k : Nat) (r : Problem), (Finding.message ⟨k, r⟩).toList
      = "Line ".toList ++ (Nat.toDigits 10 k ++ ':' :: ' ' :: r.message.toList) := by
    intro k r
    simp only [Finding.message, String.toList_append, Nat.toString_eq_repr, Nat.toList_repr,
      List.append_assoc]
    rfl
  have hcolon : ∀ k, ':' ∉ Nat.toDigits 10 k := by
    intro k hmem
    cases Nat.isDigit_of_mem_toDigits (by decide) (by decide) hmem
  have hmessage : ':' ∉ ' ' :: p.message.toList := by
    cases p <;> decide
  have hlists := congrArg String.toList h
  rw [htoList, htoList, List.append_cancel_left_eq] at hlists
  obtain ⟨hdigits, -, hrest⟩ := (List.append_cons_inj_of_notMem (hcolon m) hmessage).1 hlists
  have hnumber : m = n := by
    rw [← Numeral.value_digits m, ← Numeral.value_digits n, Numeral.digits, Numeral.digits, hdigits]
  have hproblem : p = q := Problem.message_injective (String.toList_inj.1 (List.cons.inj hrest).2)
  rw [hnumber, hproblem]

theorem checkLines_append (xs ys : List Text) :
    checkLines n (xs ++ ys) = checkLines n xs ++ checkLines (n + xs.length) ys := by
  induction xs generalizing n with
  | nil => rfl
  | cons raw xs ih =>
    have hn : n + 1 + xs.length = n + (xs.length + 1) := by omega
    rw [List.cons_append, checkLines, checkLines, ih, List.append_assoc, List.length_cons, hn]

/-- Where the count starts only shows in the numbers. -/
theorem checkLines_add (count : Nat) (ls : List Text) :
    checkLines (n + count) ls = (checkLines n ls).map (·.below count) := by
  induction ls generalizing n with
  | nil => rfl
  | cons raw ls ih =>
    have hn : n + count + 1 = n + 1 + count := by omega
    rw [checkLines, checkLines, hn, ih, List.map_append, List.map_map]
    rfl

theorem check_append (a b : Text) :
    check (a ++ '\n' :: b) = check a ++ (check b).map (·.below (lines a).length) := by
  have hlines : lines (a ++ '\n' :: b) = lines a ++ lines b := List.splitOn_append_cons_self ..
  rw [check, hlines, checkLines_append, checkLines_add]
  rfl

theorem mem_checkLines_iff {f : Finding} {ls : List Text} : f ∈ checkLines n ls
    ↔ ∃ i raw, ls[i]? = some raw ∧ f.line = n + i ∧ f.problem ∈ problems (trim raw) := by
  induction ls generalizing n with
  | nil => simp [checkLines]
  | cons raw ls ih =>
    have hfirst : f ∈ (problems (trim raw)).map (⟨n, ·⟩)
        ↔ f.line = n ∧ f.problem ∈ problems (trim raw) := by
      obtain ⟨line, problem⟩ := f
      simp [and_comm, eq_comm]
    rw [checkLines, List.mem_append, hfirst, ih]
    constructor
    · rintro (⟨hline, hproblem⟩ | ⟨i, line, hi, hline, hproblem⟩)
      · exact ⟨0, raw, rfl, hline, hproblem⟩
      · exact ⟨i + 1, line, hi, by omega, hproblem⟩
    · rintro ⟨i, line, hi, hline, hproblem⟩
      cases i with
      | zero =>
        cases hi
        exact .inl ⟨hline, hproblem⟩
      | succ i => exact .inr ⟨i, line, hi, by omega, hproblem⟩

/-- What is found in a line depends on that line alone. -/
theorem mem_check_iff (hraw : (lines source)[i]? = some raw) :
    ⟨i + 1, p⟩ ∈ check source ↔ p ∈ problems (trim raw) := by
  rw [check, mem_checkLines_iff]
  constructor
  · rintro ⟨j, line, hj, hline, hproblem⟩
    have hi : j = i := by
      change i + 1 = 1 + j at hline
      omega
    rw [hi, hraw] at hj
    cases hj
    exact hproblem
  · exact fun hproblem => ⟨i, raw, hraw, Nat.add_comm i 1, hproblem⟩

theorem variableSyntax_mem_problems_iff {line : Text} : .variableSyntax ∈ problems line
    ↔ (line ≠ [] ∧ line.head? ≠ some ';')
      ∧ line.count '\\' ≠ (Variable.references line).length := by
  rw [ne_eq (line.count '\\'), ← Variable.referring_iff_count,
    ← Variable.hasInvalidReference_eq_false_iff, Bool.not_eq_false]
  unfold problems
  by_cases hskipped : line = [] ∨ line.head? = some ';'
  · have hnot : ¬ (line ≠ [] ∧ line.head? ≠ some ';') := by
      rw [← not_or, not_not]
      exact hskipped
    rw [if_pos (by simpa using hskipped)]
    simp only [List.not_mem_nil, hnot, false_and]
  · rw [if_neg (by simpa using hskipped)]
    have hcode : line ≠ [] ∧ line.head? ≠ some ';' := not_or.1 hskipped
    cases hasInvalidReference line with
    | false => simp
    | true => simpa using hcode

/-- The messages for two sources, one below the other, are those for the upper one and then those
for the lower one, with the lines of the upper one counted in. A line has the message about its
variables just if it is neither blank nor a comment and holds fewer references than backslashes. -/
theorem messages_joined (a b source : Text) :
    messages (a ++ '\n' :: b)
      = messages a ++ (check b).map (fun f => (f.below (lines a).length).message)
    ∧ ∀ i raw, (lines source)[i]? = some raw →
      (Finding.message ⟨i + 1, .variableSyntax⟩ ∈ messages source
        ↔ (trim raw ≠ [] ∧ (trim raw).head? ≠ some ';')
          ∧ (trim raw).count '\\' ≠ (Variable.references (trim raw)).length) := by
  constructor
  · rw [messages, check_append, List.map_append, List.map_map]
    rfl
  · intro i raw hraw
    rw [messages, List.mem_map_of_injective Finding.message_injective, mem_check_iff hraw,
      variableSyntax_mem_problems_iff]

/-- A reference without its comma, and a comment. -/
def lacksComma : Text :=
  ofLines ["EVAL8 \\x 1,".toList, "; \\".toList]

/-- Two references with a backslash between them, and a parenthesis. -/
def strayBackslash : Text :=
  ofLines ["  EVAL8 \\x,\\\\y,".toList, "CALL (".toList]

theorem messages_joined_stray :
    messages (lacksComma ++ '\n' :: strayBackslash)
      = [⟨1, .variableSyntax⟩, ⟨3, .variableSyntax⟩, ⟨4, .parentheses⟩].map Finding.message
    ∧ "EVAL8 \\x,\\\\y,".toList.count '\\' = 3
    ∧ (Variable.references "EVAL8 \\x,\\\\y,".toList).length = 2
    ∧ Finding.message ⟨1, .variableSyntax⟩ ∈ messages strayBackslash := by
  obtain ⟨hjoined, hline⟩ := messages_joined lacksComma strayBackslash strayBackslash
  have hupper : check lacksComma = [⟨1, .variableSyntax⟩] := by decide +kernel
  have hlower : check strayBackslash = [⟨1, .variableSyntax⟩, ⟨2, .parentheses⟩] := by
    decide +kernel
  have hcount : (lines lacksComma).length = 2 := by decide +kernel
  have hcounts : "EVAL8 \\x,\\\\y,".toList.count '\\' = 3
      ∧ (Variable.references "EVAL8 \\x,\\\\y,".toList).length = 2 := by decide +kernel
  refine ⟨?_, hcounts.1, hcounts.2, ?_⟩
  · rw [hjoined, messages, hupper, hlower, hcount]
    rfl
  · rw [hline 0 "  EVAL8 \\x,\\\\y,".toList (by decide +kernel)]
    decide +kernel

end Lint

end ContractAsm
