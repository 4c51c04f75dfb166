-- SUMMARY: Calls of selectors, and where the text around them comes from.
import ContractAsm.Proofs.Rewording

/-!
# Selectors in a line

A text is read from the front, call by call. So what can be said of it follows its calls: a
character that starts none is copied, and a call is replaced as a whole. A backslash stays where it
is between the calls, and whatever is in front of it is expanded as if it were alone.
-/

namespace ContractAsm.Literal

open Text

variable {fn argument t : Text} {f : Text → Text} {before : Option Char} {n : Nat}

/-! ## Calls -/

/-- A call as it is written. -/
def callText (fn argument : Text) : Text :=
  fn ++ '(' :: '"' :: argument ++ ['"', ')']

theorem length_callText (fn argument : Text) :
    (callText fn argument).length = fn.length + argument.length + 4 := by
  simp [callText]
  omega

/-- The text from a call on has the call in front, and the argument ends at the next quote. -/
theorem call_eq_some_iff : call fn before t = some (argument, n)
    ↔ '"' ∉ argument ∧ n = (callText fn argument).length
      ∧ ∃ rest, t = callText fn argument ++ rest := by
  rw [length_callText]
  constructor
  · intro h
    obtain ⟨rest, hrest⟩ := call_eq_some h
    unfold call at h
    split at h
    · cases h
    · simp only at h
      split at h
      · obtain ⟨hargument, hn⟩ := Prod.mk.inj (Option.some.inj h)
        refine ⟨?_, ?_, rest, by simp [hrest, callText]⟩
        · rw [← hargument]
          intro hquote
          simpa using List.mem_takeWhile_imp hquote
        · rw [← hargument, ← hn]
      · cases h
  · rintro ⟨hquote, rfl, rest, rfl⟩
    have hpass : ∀ c ∈ argument, (c != '"') = true := by
      intro c hc
      simpa using fun heq : c = '"' => hquote (heq ▸ hc)
    have hprefix : (fn ++ "(\"".toList).isPrefixOf? (callText fn argument ++ rest)
        = some (argument ++ '"' :: ')' :: rest) := by
      rw [List.isPrefixOf?_eq_some_iff_append_eq]
      simp [callText]
    have htake : (argument ++ '"' :: ')' :: rest).takeWhile (· != '"') = argument :=
      takeWhile_append_stop hpass (by simp)
    have hdrop : (argument ++ '"' :: ')' :: rest).dropWhile (· != '"') = '"' :: ')' :: rest :=
      dropWhile_append_stop hpass (by simp)
    simp only [call, hprefix, htake, hdrop]

theorem call_callText (hquote : '"' ∉ argument) (before : Option Char) (rest : Text) :
    call fn before (callText fn argument ++ rest)
      = some (argument, (callText fn argument).length) :=
  call_eq_some_iff.2 ⟨hquote, rfl, rest, rfl⟩

/-- What is behind a text cannot keep a call in it from being one. -/
theorem call_of_append {rest : Text} (h : call fn before (t ++ rest) = none) :
    call fn before t = none := by
  cases hcall : call fn before t with
  | none => rfl
  | some found =>
    obtain ⟨hquote, -, tail, rfl⟩ := call_eq_some_iff.1 hcall
    rw [List.append_assoc, call_callText hquote] at h
    cases h

/-- Every text is read from the front: a character that starts no call, or a call. -/
theorem call_induction (fn : Text) {motive : Text → Prop} (nil : motive [])
    (copied : ∀ c cs, call fn none (c :: cs) = none → motive cs → motive (c :: cs))
    (called : ∀ argument rest, '"' ∉ argument → motive rest → motive (callText fn argument ++ rest))
    (t : Text) : motive t := by
  -- on the length of the text, which every call makes shorter
  induction hlength : t.length using Nat.strongRecOn generalizing t with
  | _ k ih =>
    subst hlength
    cases t with
    | nil => exact nil
    | cons c cs =>
      cases hcall : call fn none (c :: cs) with
      | none => exact copied c cs hcall (ih cs.length (by simp) cs rfl)
      | some found =>
        obtain ⟨hquote, -, rest, hrest⟩ := call_eq_some_iff.1 hcall
        rw [hrest] at ih ⊢
        refine called found.1 rest hquote (ih rest.length ?_ rest rfl)
        rw [List.length_append, length_callText]
        omega

/-! ## Replacing calls -/

/-- A call is recognised whatever is in front of it. -/
theorem replaceFrom_call (before : Option Char) :
    replaceFrom (call fn) f before t = replaceAll (call fn) f t := by
  cases t with
  | nil => rfl
  | cons c cs => rfl

theorem replaceAll_call_cons {c : Char} {cs : Text} (h : call fn none (c :: cs) = none) :
    replaceAll (call fn) f (c :: cs) = c :: replaceAll (call fn) f cs := by
  rw [replaceAll_eq_replaceFrom, replaceFrom_cons h, replaceFrom_call]

theorem replaceAll_callText (hquote : '"' ∉ argument) (rest : Text) :
    replaceAll (call fn) f (callText fn argument ++ rest)
      = f argument ++ replaceAll (call fn) f rest := by
  have hne : callText fn argument ≠ [] := by simp [callText]
  rw [replaceAll_eq_replaceFrom, replaceFrom_found hne (call_callText hquote none rest),
    replaceFrom_call]

/-- Replacing calls puts in no backslash. So a backslash of the result is one of the text, and the
parts in front of it and behind it are replaced each by itself. -/
theorem exists_of_replaceAll_backslash (hf : ∀ a, IsWord (f a)) {front rest : Text}
    (h : replaceAll (call fn) f t = front ++ '\\' :: rest) :
    ∃ u v, t = u ++ '\\' :: v ∧ replaceAll (call fn) f u = front
      ∧ replaceAll (call fn) f v = rest := by
  induction t using call_induction fn generalizing front with
  | nil => simp at h
  | copied c cs hcall ih =>
    rw [replaceAll_call_cons hcall] at h
    cases front with
    | nil =>
      obtain ⟨rfl, hrest⟩ := List.cons.inj h
      exact ⟨[], cs, rfl, rfl, hrest⟩
    | cons d front =>
      obtain ⟨rfl, hcs⟩ := List.cons.inj h
      obtain ⟨u, v, rfl, hu, hv⟩ := ih hcs
      have hfront : call fn none (c :: u) = none := call_of_append hcall
      exact ⟨c :: u, v, rfl, by rw [replaceAll_call_cons hfront, hu], hv⟩
  | called argument tail hquote ih =>
    rw [replaceAll_callText hquote] at h
    -- a call is replaced by a word, which ends in front of the backslash
    obtain ⟨front, rfl, hfront⟩ : ∃ s, front = f argument ++ s
        ∧ replaceAll (call fn) f tail = s ++ '\\' :: rest := by
      rcases List.append_eq_append_iff.1 h with ⟨s, hs, htail⟩ | ⟨s, hs, hrest⟩
      · exact ⟨s, hs, htail⟩
      · cases s with
        | nil => exact ⟨[], by simp [hs], by simp [hrest]⟩
        | cons d s =>
          obtain ⟨rfl, -⟩ := List.cons.inj hrest
          cases (hf argument).2 '\\' (by simp [hs])
    obtain ⟨u, v, rfl, hu, hv⟩ := ih hfront
    refine ⟨callText fn argument ++ u, v, by simp, ?_, hv⟩
    rw [replaceAll_callText hquote, hu]

/-- A backslash that is left by the expansion of selectors is one of the line, and what is in front
of it is expanded by itself. -/
theorem exists_of_expandSelectors_backslash {front rest : Text}
    (h : expandSelectors t = front ++ '\\' :: rest) :
    ∃ u v, t = u ++ '\\' :: v ∧ expandSelectors u = front ∧ expandSelectors v = rest := by
  obtain ⟨u', v', ht, hu', hv'⟩ := exists_of_replaceAll_backslash isWord_wideSelector h
  obtain ⟨u, v, rfl, rfl, rfl⟩ := exists_of_replaceAll_backslash isWord_selector ht
  exact ⟨u, v, rfl, hu', hv'⟩

/-! ## What is in front of the first call -/

/-- A text that holds neither the first character of a call nor that of what replaces it stands at
the front after replacing just if it did before. -/
theorem isPrefix_replaceAll_iff {p : Text} {a x : Char} (hfn : fn.head? = some a)
    (hf : ∀ argument, (f argument).head? = some x) (ha : a ∉ p) (hx : x ∉ p) :
    p <+: replaceAll (call fn) f t ↔ p <+: t := by
  induction t using call_induction fn generalizing p with
  | nil => rfl
  | copied c cs hcall ih =>
    rw [replaceAll_call_cons hcall]
    cases p with
    | nil => simp
    | cons q p =>
      rw [List.cons_prefix_cons, List.cons_prefix_cons,
        ih (List.not_mem_of_not_mem_cons ha) (List.not_mem_of_not_mem_cons hx)]
  | called argument rest hquote _ =>
    obtain ⟨fn', rfl⟩ := List.head?_eq_some_iff.1 hfn
    obtain ⟨word, hword⟩ := List.head?_eq_some_iff.1 (hf argument)
    rw [replaceAll_callText hquote, hword, callText]
    cases p with
    | nil => simp
    | cons q p =>
      have hqa : q ≠ a := fun heq => ha (by simp [heq])
      have hqx : q ≠ x := fun heq => hx (by simp [heq])
      simp [List.cons_prefix_cons, hqa, hqx]

theorem isPrefix_expandSelectors_iff {p : Text} (h : ∀ c ∈ "aAx".toList, c ∉ p) :
    p <+: expandSelectors t ↔ p <+: t := by
  have hx : 'x' ∉ p := h 'x' (by simp)
  have hselector : ∀ argument, (selector argument).head? = some 'x' := fun _ => rfl
  have hwide : ∀ argument, (wideSelector argument).head? = some 'x' := fun _ => rfl
  rw [expandSelectors, isPrefix_replaceAll_iff rfl hwide (h 'A' (by simp)) hx,
    isPrefix_replaceAll_iff rfl hselector (h 'a' (by simp)) hx]

end ContractAsm.Literal
