-- SUMMARY: The line and column that the error at a reference names.
import ContractAsm.Proofs.CheckedReference
import ContractAsm.Proofs.Scoping
import ContractAsm.Proofs.Selector

/-!
# Columns of errors

The error at a reference gives its line and a column. The line is counted in the source. The column
is counted in the text that was searched, which has lost the blanks at the margin and has its
selectors expanded. So the column says where the reference stands in the line only if nothing of
this has moved it.
-/

namespace ContractAsm

open Text

/-! ## Where a scan finds something -/

namespace Text

variable {α : Type} {rule : Recogniser α} {before : Option Char} {skip n start : Nat} {a : α}
  {t : Text}

/-- What a scan finds is recognised at the place that it gives. -/
theorem exists_of_found (h : .found start a ∈ scanFrom rule skip n before t) :
    ∃ x y last length, t = x ++ y ∧ start = n + x.length ∧ rule last y = some (a, length) := by
  induction t generalizing skip n before with
  | nil => cases h
  | cons c t ih =>
    have later : ∀ skip before, .found start a ∈ scanFrom rule skip (n + 1) before t →
        ∃ x y last length, c :: t = x ++ y ∧ start = n + x.length
          ∧ rule last y = some (a, length) := by
      intro skip before hmem
      obtain ⟨x, y, last, length, rfl, hstart, hrule⟩ := ih hmem
      exact ⟨c :: x, y, last, length, rfl, by simp [hstart]; omega, hrule⟩
    cases skip with
    | succ k => exact later k _ h
    | zero =>
      rw [scanFrom] at h
      cases hrule : rule before (c :: t) with
      | none =>
        rw [hrule] at h
        exact later 0 _ (by simpa using h)
      | some found =>
        rw [hrule] at h
        rcases List.mem_cons.1 h with heq | hmem
        · cases heq
          exact ⟨[], c :: t, before, found.2, rfl, rfl, hrule⟩
        · exact later _ _ hmem

/-- A scan goes from left to right. -/
theorem pairwise_scanFrom : (scanFrom rule skip n before t).Pairwise fun p q =>
    ∀ i a j b, p = .found i a → q = .found j b → i < j := by
  induction t generalizing skip n before with
  | nil => exact .nil
  | cons c t ih =>
    cases skip with
    | succ k => exact ih
    | zero =>
      rw [scanFrom]
      cases rule before (c :: t) with
      | none => exact .cons (by simp) ih
      | some found =>
        refine .cons (fun q hq i a j b hi hj => ?_) ih
        cases hi
        subst hj
        obtain ⟨x, -, -, -, -, rfl, -⟩ := exists_of_found hq
        omega

end Text

/-! ## Where references stand -/

namespace Variable

variable {name t : Text} {before : Option Char} {start : Nat}

theorem reference_token (hname : IsWord name) (before : Option Char) (tail : Text) :
    reference before (token name ++ tail) = some (name, (token name).length) := by
  obtain ⟨c, cs, hcons⟩ := List.exists_cons_of_ne_nil hname.1
  have htoken : token name ++ tail = '\\' :: (name ++ ',' :: tail) := by simp [token]
  have htake := takeWhile_name hname.2 tail
  rw [htoken, reference]
  simp only [htake]
  simp [hcons, token]

theorem reference_eq_some {found : Text × Nat} (h : reference before t = some found) :
    IsWord found.1 ∧ found.2 = (token found.1).length ∧ ∃ tail, t = token found.1 ++ tail := by
  cases t with
  | nil => cases h
  | cons c t =>
    have hc : c = '\\' := by
      by_contra hne
      rw [reference_of_ne hne] at h
      cases h
    subst hc
    obtain ⟨name, tail, hname, rfl⟩ :=
      (reference_backslash_isSome_iff before).1 (by rw [h]; rfl)
    have htoken : '\\' :: (name ++ ',' :: tail) = token name ++ tail := by simp [token]
    rw [htoken, reference_token hname] at h
    cases h
    exact ⟨hname, rfl, tail, htoken⟩

theorem backslash_not_mem_name (hname : IsWord name) : '\\' ∉ name ++ [','] := by
  intro hmem
  rcases List.mem_append.1 hmem with hmem | hmem
  · cases hname.2 _ hmem
  · cases List.mem_singleton.1 hmem

/-- A reference is found wherever it is written. What the scan skips is the rest of another one, and
there is no backslash in that. -/
theorem found_of_token (hname : IsWord name) {front tail : Text} {skip n : Nat}
    (hskip : '\\' ∉ (front ++ (token name ++ tail)).take skip) :
    .found (n + front.length) name
      ∈ scanFrom reference skip n before (front ++ (token name ++ tail)) := by
  induction front generalizing skip n before with
  | nil =>
    cases skip with
    | succ k => simp [token] at hskip
    | zero =>
      have hreference := reference_token hname before tail
      simp only [token, List.cons_append, List.nil_append] at hreference ⊢
      rw [scanFrom, hreference]
      exact List.mem_cons_self ..
  | cons c front ih =>
    have hn : n + (front.length + 1) = n + 1 + front.length := by omega
    rw [List.length_cons, hn, List.cons_append]
    cases skip with
    | succ k => exact ih fun hmem => hskip (by simp [hmem])
    | zero =>
      rw [scanFrom]
      cases hreference : reference before (c :: (front ++ (token name ++ tail))) with
      | none => exact List.mem_cons_of_mem _ (ih (by simp))
      | some found =>
        obtain ⟨hword, hlength, rest, hrest⟩ := reference_eq_some hreference
        have hbehind : front ++ (token name ++ tail) = (found.1 ++ [',']) ++ rest :=
          (List.cons.inj hrest).2
        refine List.mem_cons_of_mem _ (ih fun hmem => backslash_not_mem_name hword ?_)
        have hskipped : found.2 - 1 = (found.1 ++ [',']).length := by simp [hlength, token]
        rwa [hbehind, hskipped, List.take_left' rfl] at hmem

/-- The references of a text are the names between a backslash and a comma. -/
theorem mem_references_iff : (start, name) ∈ references t
    ↔ IsWord name ∧ ∃ front tail, t = front ++ (token name ++ tail) ∧ start = front.length := by
  have hscan : (start, name) ∈ references t ↔ .found start name ∈ scan reference t := by
    constructor
    · intro h
      obtain ⟨p, hp, hsome⟩ := List.mem_filterMap.1 h
      cases p with
      | char c => cases hsome
      | found i a =>
        cases hsome
        exact hp
    · exact fun h => List.mem_filterMap.2 ⟨_, h, rfl⟩
  rw [hscan]
  constructor
  · intro h
    obtain ⟨front, y, last, length, rfl, hstart, hrule⟩ := exists_of_found h
    obtain ⟨hname, -, tail, rfl⟩ := reference_eq_some hrule
    exact ⟨hname, front, tail, rfl, by simpa using hstart⟩
  · rintro ⟨hname, front, tail, rfl, rfl⟩
    have hskip : '\\' ∉ (front ++ (token name ++ tail)).take 0 := by simp
    have hfound : .found (0 + front.length) name
        ∈ scanFrom reference 0 0 none (front ++ (token name ++ tail)) :=
      found_of_token hname hskip
    rwa [Nat.zero_add] at hfound

theorem pairwise_references (t : Text) : (references t).Pairwise fun r s => r.1 < s.1 := by
  refine List.Pairwise.filterMap _ ?_ pairwise_scanFrom
  intro p q hpq r hr s hs
  cases p with
  | char c => cases hr
  | found i a =>
    cases q with
    | char c => cases hs
    | found j b =>
      cases hr
      cases hs
      exact hpq i a j b rfl rfl

/-- A reference that starts in front of a backslash ends in front of it. -/
theorem exists_of_token_append (hname : IsWord name) {front front' rest tail : Text}
    (h : front ++ '\\' :: rest = front' ++ (token name ++ tail))
    (hlength : front'.length < front.length) : ∃ s, front = front' ++ (token name ++ s) := by
  rcases List.append_eq_append_iff.1 h with ⟨s, rfl, -⟩ | ⟨s, rfl, hs⟩
  · simp at hlength
  · rcases List.append_eq_append_iff.1 hs with ⟨s', rfl, -⟩ | ⟨s', hs', hbackslash⟩
    · exact ⟨s', rfl⟩
    · cases s' with
      | nil => exact ⟨[], by simp [hs']⟩
      | cons c s' =>
        obtain ⟨rfl, -⟩ := List.cons.inj hbackslash
        cases s with
        | nil => simp at hlength
        | cons d s =>
          -- the backslash would be one of the name or the comma
          have hbehind : name ++ [','] = s ++ '\\' :: s' := (List.cons.inj hs').2
          exact absurd (by simp [hbehind]) (backslash_not_mem_name hname)

end Variable

namespace Source

open Variable

/-- What fails is the first reference to a variable without a location. -/
theorem Place.le_of_unresolved? [Platform] {x : Place} {start i : Nat} {name : Text}
    (h : x.unresolved? = some (start, name)) (hi : (i, name) ∈ x.references) : start ≤ i := by
  obtain ⟨hlacks, before, after, hsplit, hfirst⟩ := List.find?_eq_some_iff_append.1 h
  have hpairwise : x.references.Pairwise fun r s => r.1 < s.1 := by
    unfold references
    cases code? x.line with
    | none => exact .nil
    | some t => exact pairwise_references t
  rw [hsplit] at hi hpairwise
  rcases List.mem_append.1 hi with hmem | hmem
  · have hlocated := hfirst _ hmem
    simp only at hlacks
    simp [hlacks] at hlocated
  · rcases List.mem_cons.1 hmem with heq | hmem
    · cases heq
      exact Nat.le_refl _
    · obtain ⟨-, hafter, -⟩ := List.pairwise_append.1 hpairwise
      exact Nat.le_of_lt ((List.pairwise_cons.1 hafter).1 _ hmem)

/-! ## From the text back to the line -/

variable {line front rest : Text}

/-- A backslash in the text of a line is one of the line. What is in front of it in the text is what
is in front of it in the line, without the blanks at the margin and with its selectors expanded. -/
theorem exists_of_code?_backslash (hline : '\n' ∉ line)
    (hcode : code? line = some (front ++ '\\' :: rest)) :
    ∃ front' rest', line = front' ++ '\\' :: rest'
      ∧ Literal.expandSelectors (trimStart front') = front := by
  obtain ⟨-, -, htext⟩ := code?_eq_some hcode
  obtain ⟨u, v, hsplit, hfront, -⟩ := Literal.exists_of_expandSelectors_backslash htext.symm
  obtain ⟨comment, hcomment⟩ :=
    exists_stripComment_append fun hmem => hline (mem_of_mem_trim hmem)
  obtain ⟨before, after, hblanks, hbefore, -⟩ := exists_blanks_trim line
  have htrim : trim line = u ++ '\\' :: (v ++ comment) := by
    rw [hcomment, hsplit]
    simp
  have hmargin : trimStart (before ++ u) = u := by
    refine dropWhile_append_stop hbefore ?_
    cases u with
    | nil => rfl
    | cons c u =>
      obtain ⟨d, ds, hflush, hd⟩ := flush_trim (t := line) (by simp [htrim])
      obtain ⟨rfl, -⟩ := List.cons.inj (htrim.symm.trans hflush)
      simpa using hd
  refine ⟨before ++ u, v ++ comment ++ after, ?_, by rw [hmargin, hfront]⟩
  conv_lhs => rw [hblanks, htrim]
  simp

theorem trimStart_append_backslash (front rest : Text) :
    trimStart (front ++ '\\' :: rest) = trimStart front ++ '\\' :: rest := by
  have hstop : (trimStart front ++ '\\' :: rest).head?.any isBlank = false := by
    by_cases hne : trimStart front = []
    · rw [hne]
      rfl
    · obtain ⟨c, cs, hcs, hc⟩ := flush_trimStart hne
      simpa [hcs] using hc
  have hsplit : front ++ '\\' :: rest
      = front.takeWhile isBlank ++ (trimStart front ++ '\\' :: rest) := by
    rw [← List.append_assoc, trimStart, List.takeWhile_append_dropWhile]
  rw [hsplit]
  exact dropWhile_append_stop (fun c hc => List.mem_takeWhile_imp hc) hstop

/-- In an indented line, what stands behind as many characters as the reference has in front of it
at the margin is further to the left. -/
theorem exists_token_of_indented {name blanks u before tail : Text} (hname : IsWord name)
    (hblanks : ∀ c ∈ blanks, isBlank c = true) (hne : blanks ≠ [])
    (h : before ++ (token name ++ tail) = blanks ++ (u ++ '\\' :: rest))
    (hbefore : before.length = u.length) : ∃ u' s, u = u' ++ (token name ++ s) := by
  have hlength := List.length_pos_iff.2 hne
  -- the reference starts behind the blanks, for it starts with none
  obtain ⟨u', rfl, hbehind⟩ : ∃ u', before = blanks ++ u'
      ∧ u ++ '\\' :: rest = u' ++ (token name ++ tail) := by
    rcases List.append_eq_append_iff.1 h with ⟨s, rfl, htoken⟩ | ⟨u', hu', hbehind⟩
    · cases s with
      | nil => exact ⟨[], by simp, by simpa using htoken.symm⟩
      | cons c s =>
        obtain ⟨rfl, -⟩ := List.cons.inj htoken
        cases hblanks '\\' (by simp)
    · exact ⟨u', hu', hbehind⟩
  have hshorter : u'.length < u.length := by
    rw [List.length_append] at hbefore
    omega
  obtain ⟨s, hs⟩ := exists_of_token_append hname hbehind hshorter
  exact ⟨u', s, hs⟩

/-- Where no selector is in front of it, a reference stands at the column of its error just if the
line is not indented and the reference is written in it. -/
theorem Place.token_isPrefix_drop_iff {x : Place} {name tail : Text} (hname : IsWord name)
    (hline : x.line = front ++ '\\' :: rest)
    (hcode : code? x.line = some (trimStart front ++ (token name ++ tail)))
    (hfirst : ∀ i, (i, name) ∈ x.references → (trimStart front).length ≤ i) :
    token name <+: x.line.drop (trimStart front).length
      ↔ trimStart x.line = x.line ∧ token name <+: '\\' :: rest := by
  have hmargin : trimStart x.line = x.line ↔ trimStart front = front := by
    rw [hline, trimStart_append_backslash, List.append_cancel_right_eq]
  rw [hmargin]
  constructor
  · intro hprefix
    by_cases hfront : trimStart front = front
    · rw [hfront, hline, List.drop_left] at hprefix
      exact ⟨hfront, hprefix⟩
    · -- an indented line would have the same reference further to the left
      exfalso
      have hsplit : front = front.takeWhile isBlank ++ trimStart front :=
        List.takeWhile_append_dropWhile.symm
      have hne : front.takeWhile isBlank ≠ [] := by
        intro hnil
        rw [hnil, List.nil_append] at hsplit
        exact hfront hsplit.symm
      obtain ⟨behind, hbehind⟩ := hprefix
      have hsame : x.line.take (trimStart front).length ++ (token name ++ behind)
          = front.takeWhile isBlank ++ (trimStart front ++ '\\' :: rest) := by
        rw [hbehind, List.take_append_drop, ← List.append_assoc, ← hsplit, hline]
      have hlength : (trimStart front).length ≤ front.length :=
        (List.dropWhile_sublist isBlank).length_le
      obtain ⟨u, s, hu⟩ := exists_token_of_indented hname
        (fun c hc => List.mem_takeWhile_imp hc) hne hsame (by simp [hline]; omega)
      have hmem : (u.length, name) ∈ x.references := by
        rw [references, hcode]
        exact mem_references_iff.2 ⟨hname, u, s ++ (token name ++ tail), by simp [hu], rfl⟩
      have hle := hfirst _ hmem
      rw [hu, List.length_append, List.length_append] at hle
      simp [token] at hle
  · rintro ⟨hfront, hprefix⟩
    rwa [hfront, hline, List.drop_left]

/-- An undefined variable is the first reference of the source that has no location. -/
theorem first_of_undefined [Platform] {verbose : Bool} {filename : String} {source : Text}
    {u : UndefinedVariable}
    (h : (Assembly.ofSource verbose filename source).result = .error (.undefinedVariable u)) :
    ∃ x start name, (places (lines source)).find? (·.unresolved?.isSome) = some x
      ∧ x.unresolved? = some (start, name)
      ∧ (x.complaint filename start name).toList <+: u.diagnostic.render.toList := by
  rcases Assembly.ofSource_eq_error h with ⟨l, hl⟩ | hlisting | ⟨_, _, _, _, _, he⟩
  · cases hl
  · obtain ⟨before, x, after, hplaces, hx, hbefore⟩ :=
      List.findSome?_eq_some_iff.1 (listing_fault hlisting fun l hl => by cases hl)
    obtain ⟨-, start, name, hunresolved, hcomplaint⟩ := Place.undefined_of_fault? hx
    refine ⟨x, start, name, List.find?_eq_some_iff_append.2 ⟨?_, before, after, hplaces, ?_⟩,
      hunresolved, hcomplaint⟩
    · rw [hunresolved]
      rfl
    · intro y hy
      rw [Place.unresolved?_of_fault? (hbefore y hy)]
      rfl
  · cases he

/-- The error at an undefined variable names a line of the source by its number and a reference. Its
column counts what is in front of a backslash of this line, without the blanks at the margin and
with the selectors expanded. If no selector is there, the reference stands at this column just if
the line is not indented and the reference is written in it. -/
theorem error_column [Platform] (verbose : Bool) (filename : String) (source : Text)
    (u : UndefinedVariable)
    (h : (Assembly.ofSource verbose filename source).result = .error (.undefinedVariable u)) :
    ∃ message x start name front rest tail,
      (assemble verbose filename source).2.error? = some message
      ∧ (x.complaint filename start name).toList <+: message.toList
      ∧ (places (lines source)).find? (·.unresolved?.isSome) = some x
      ∧ x.unresolved? = some (start, name)
      ∧ (lines source)[x.number - 1]? = some x.line
      ∧ x.line = front ++ '\\' :: rest
      ∧ start = (Literal.expandSelectors (trimStart front)).length
      ∧ code? x.line = some (Literal.expandSelectors (trimStart front) ++ (token name ++ tail))
      ∧ (Literal.expandSelectors (trimStart front) = trimStart front →
        (token name <+: x.line.drop start
          ↔ trimStart x.line = x.line ∧ token name <+: '\\' :: rest)) := by
  obtain ⟨x, start, name, hfind, hunresolved, hcomplaint⟩ := first_of_undefined h
  obtain ⟨hbefore, hline⟩ := mem_places_iff.1 (List.mem_of_find?_eq_some hfind)
  have hnewline : '\n' ∉ x.line := newline_not_mem_line (List.mem_of_getElem? hline)
  have hmem : (start, name) ∈ x.references := List.mem_of_find?_eq_some hunresolved
  cases hcode : code? x.line with
  | none => simp [Place.references, hcode] at hmem
  | some t =>
    rw [Place.references, hcode] at hmem
    obtain ⟨hname, front, tail, rfl, rfl⟩ := mem_references_iff.1 hmem
    obtain ⟨front', rest, hsplit, rfl⟩ := exists_of_code?_backslash hnewline hcode
    refine ⟨u.diagnostic.render, x, _, name, front', rest, tail, ?_, hcomplaint, hfind, hunresolved,
      hline, hsplit, rfl, hcode, fun hsame => ?_⟩
    · simp only [assemble, Logged.toOutcome, h]
      rfl
    · rw [hsame] at hcode hunresolved ⊢
      exact Place.token_isPrefix_drop_iff hname hsplit hcode
        fun i hi => Place.le_of_unresolved? hunresolved hi

/-- A definition with a selector, an indented statement, and one at the margin that refers to a
variable without a location. -/
def referringAtMargin : List Text := [
  "define f abi(\"f\") ; \\x,".toList,
  "  EVAL8 gi0,1,".toList,
  "EVAL8 gi0,\\x,1, ; x".toList]

theorem error_column_atMargin :
    (∃ message, (assemble false "main.asm" (ofLines referringAtMargin)).2.error? = some message
      ∧ "main.asm:3:11: error: invalid variable reference '\\x,'".toList <+: message.toList)
    ∧ "\\x,".toList <+: "EVAL8 gi0,\\x,1, ; x".toList.drop 10 := by
  obtain ⟨u, hu⟩ := exists_of_isUndefined
    (x := (Assembly.ofSource false "main.asm" (ofLines referringAtMargin)).result)
    (by decide +kernel)
  obtain ⟨message, x, start, name, front, rest, tail, hmessage, hcomplaint, hfind, hunresolved, -,
    hline, -, -, hstands⟩ := error_column false "main.asm" (ofLines referringAtMargin) u hu
  have hfirst : ((places (lines (ofLines referringAtMargin))).find? (·.unresolved?.isSome)).map
      (fun x => (x.number, x.line, x.unresolved?))
      = some (3, "EVAL8 gi0,\\x,1, ; x".toList, some (10, ['x'])) := by
    decide +kernel
  rw [hfind, Option.map_some, hunresolved] at hfirst
  obtain ⟨hnumber, htext, rfl, rfl⟩ : x.number = 3 ∧ x.line = "EVAL8 gi0,\\x,1, ; x".toList
      ∧ start = 10 ∧ name = ['x'] := by
    simpa using hfirst
  have hcomplaint' : x.complaint "main.asm" 10 ['x']
      = "main.asm:3:11: error: invalid variable reference '\\x,'" := by
    rw [Place.complaint, hnumber]
    decide +kernel
  rw [hcomplaint'] at hcomplaint
  refine ⟨⟨message, hmessage, hcomplaint⟩, ?_⟩
  -- there is one backslash in the line, so what is in front of it is known
  have hnone : '\\' ∉ front := by
    have hcount : x.line.count '\\' = 1 := by
      rw [htext]
      decide
    rw [hline, List.count_append, List.count_cons_self] at hcount
    exact List.count_eq_zero.1 (by omega)
  rw [htext] at hline hstands
  have hfront : front = "EVAL8 gi0,".toList := by
    have hpass : ∀ c ∈ front, (c != '\\') = true := by
      intro c hc
      simpa using fun heq : c = '\\' => hnone (heq ▸ hc)
    have htake := takeWhile_append_stop (y := '\\' :: rest) hpass (by simp)
    rw [← hline] at htake
    exact htake.symm.trans (by decide)
  subst hfront
  have hrest : "\\x,1, ; x".toList = '\\' :: rest := by
    have happend : "EVAL8 gi0,".toList ++ "\\x,1, ; x".toList
        = "EVAL8 gi0,".toList ++ '\\' :: rest := hline
    exact List.append_cancel_left happend
  refine (hstands (by decide +kernel)).2 ⟨by decide, ?_⟩
  rw [← hrest]
  decide

/-- An indented reference to a variable without a location. -/
def referringIndented : Text :=
  "  EVAL8 \\x,1,".toList

theorem error_column_off :
    (∃ message, (assemble false "main.asm" referringIndented).2.error? = some message
      ∧ "main.asm:1:7: error: invalid variable reference '\\x,'".toList <+: message.toList)
    ∧ ¬ "\\x,".toList <+: referringIndented.drop 6
    ∧ "\\x,".toList <+: referringIndented.drop 8 := by
  refine ⟨?_, by decide, by decide⟩
  obtain ⟨u, hu⟩ := exists_of_isUndefined
    (x := (Assembly.ofSource false "main.asm" referringIndented).result) (by decide +kernel)
  obtain ⟨x, start, name, hfind, hunresolved, hcomplaint⟩ := first_of_undefined hu
  have hfirst : ((places (lines referringIndented)).find? (·.unresolved?.isSome)).map
      (fun x => (x.number, x.unresolved?)) = some (1, some (6, ['x'])) := by
    decide +kernel
  rw [hfind, Option.map_some, hunresolved] at hfirst
  obtain ⟨hnumber, rfl, rfl⟩ : x.number = 1 ∧ start = 6 ∧ name = ['x'] := by
    simpa using hfirst
  have htext : x.complaint "main.asm" 6 ['x']
      = "main.asm:1:7: error: invalid variable reference '\\x,'" := by
    rw [Place.complaint, hnumber]
    decide +kernel
  rw [htext] at hcomplaint
  refine ⟨u.diagnostic.render, ?_, hcomplaint⟩
  simp only [assemble, Logged.toOutcome, hu]
  rfl

end Source

end ContractAsm
