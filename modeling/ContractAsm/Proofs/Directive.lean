-- SUMMARY: Every line with a JSON object behind its mark is decoded as a directive.
import ContractAsm.Directive
import ContractAsm.Proofs.JsonText

/-!
# Directives by their text

A line is taken for a directive by a glance at its braces, before anything is read of it. No object
with members escapes that glance, whatever braces stand in its strings and in the objects inside of
it, and the object that is decoded is the one that the text stands for.
-/

namespace ContractAsm

namespace Json

variable {room : Nat} {p w : Text} {members : List (Text × Json)}

theorem isSome_find?_iff {key : Text} :
    (find? key members).isSome = true ↔ key ∈ members.map (·.1) := by
  induction members with
  | nil => simp [find?]
  | cons member rest ih =>
    obtain ⟨k, v⟩ := member
    rw [find?, List.map_cons, List.mem_cons]
    split
    · next heq => exact iff_of_true rfl (.inl heq.symm)
    · next hne => rw [ih, or_iff_right (Ne.symm hne)]

/-- Members start with a blank or with the quote of a key. -/
theorem IsMembers.head_ne [Platform] (h : IsMembers room w members) (t : Text) :
    (w ++ t).head? ≠ some '}' := by
  intro hhead
  obtain ⟨t', ht'⟩ := List.head?_eq_some_iff.1 hhead
  obtain ⟨t'', ht''⟩ := h.skipSpace_append t
  rw [ht'] at ht''
  cases ht''

/-- An object that starts with its brace has a closing one, and members between the two unless it is
empty. -/
theorem IsText.exists_inner [Platform] (h : IsText p (.object members))
    (hbrace : p.head? = some '{') :
    ∃ inner after, p = '{' :: (inner ++ '}' :: after)
      ∧ (members = [] ∨ ∃ room ms, IsMembers room inner ms) := by
  unfold IsText at h
  generalize Platform.depth = depth at h
  obtain @⟨_, before, w, after, _, hbefore, hvalue, -⟩ := h
  -- a brace is no blank, so the value starts with it
  have hnil : before = [] := by
    cases before with
    | nil => rfl
    | cons b before =>
      cases hbrace
      exact absurd (hbefore '{' (List.mem_cons_self ..)) (by decide)
  subst hnil
  cases hvalue with
  | scalar hscalar =>
    obtain ⟨c, w', rfl, hc⟩ := hscalar.exists_cons
    cases hbrace
    exact absurd hc (by decide)
  | @emptyObject _ b hb => exact ⟨b, after, by simp, .inl rfl⟩
  | @object room w ms hms => exact ⟨w, after, by simp, .inr ⟨room, ms, hms⟩⟩

end Json

namespace Directive

/-- On a single line the glance is for a closing brace that does not follow the opening one at
once. -/
theorem isDirective_iff {rest : Text} (hline : '\n' ∉ rest) :
    isDirective (';' :: '#' :: '{' :: rest) = true ↔ rest.head? ≠ some '}' ∧ '}' ∈ rest := by
  obtain ⟨x, y, rfl, hx, hy⟩ := Text.exists_stretch (fun c => c != '}' && c != '\n') rest
  have hbrace : '}' ∉ x := fun hmem => absurd (hx '}' hmem) (by decide)
  rw [isDirective, Text.takeWhile_append_stop hx hy, List.drop_left, Bool.and_eq_true, beq_iff_eq]
  cases y with
  | nil => simp [hbrace]
  | cons c y =>
    have hc : c = '}' := by
      have hnewline : c ≠ '\n' := fun h => hline (by simp [h])
      simpa [hnewline] using hy
    subst hc
    cases x with
    | nil => simp
    | cons a x =>
      have ha : a ≠ '}' := fun h => hbrace (by simp [h])
      simp [ha]

/-- An object with members is a directive wherever it stands behind the mark of one, and it is
decoded to the members that its text gives. The only objects that are taken for plain comments are
those that are empty without a blank. -/
theorem decode_of_isText [Platform] {p : Text} {members : List (Text × Json)} (hline : '\n' ∉ p)
    (hbrace : p.head? = some '{') (htext : Json.IsText p (.object members)) :
    (members ≠ [] → isDirective (";#".toList ++ p) = true)
    ∧ (isDirective (";#".toList ++ p) = true ↔ ¬"\x7b\x7d".toList <+: p)
    ∧ decode (";#".toList ++ p) = .ok (.ok
        { kind :=
            if "code".toList ∈ members.map (·.1) then .opening
            else if "endcode".toList ∈ members.map (·.1) then .closing
            else if "srcline".toList ∈ members.map (·.1) then .sourceLine
            else .unknown
          payload := members }) := by
  obtain ⟨inner, after, rfl, hinner⟩ := htext.exists_inner hbrace
  have hrest : '\n' ∉ inner ++ '}' :: after := fun h => hline (List.mem_cons_of_mem _ h)
  have hiff : isDirective (";#".toList ++ '{' :: (inner ++ '}' :: after)) = true
      ↔ (inner ++ '}' :: after).head? ≠ some '}' :=
    (isDirective_iff hrest).trans (and_iff_left (by simp))
  refine ⟨fun hne => ?_, ?_, ?_⟩
  · obtain ⟨room, ms, hms⟩ := hinner.resolve_left hne
    exact hiff.2 (hms.head_ne _)
  · rw [hiff, not_iff_not, List.head?_eq_some_iff]
    constructor
    · rintro ⟨t, ht⟩
      exact ⟨t, by rw [ht]; rfl⟩
    · rintro ⟨t, ht⟩
      exact ⟨t, (List.cons.inj ht).2.symm⟩
  · have hread : Json.read ((";#".toList ++ '{' :: (inner ++ '}' :: after)).drop 2)
        = .ok (.object members) := Json.read_eq_ok_iff.2 htext
    rw [decode, hread]
    simp only [kindOf, Json.isSome_find?_iff]

/-- Braces in a key and in strings, an escaped quote, an object with the key of another kind inside
and a key that comes twice. -/
def crowded : Text :=
  "\x7b\"a\x7d\":\x7b\"code\":[\x7b\x7d]\x7d,\"endcode\":\"\\\"\x7d\",".toList
    ++ "\"srcline\":true ,\"endcode\":\"\x7b\\\\\"\x7d ".toList

theorem decode_of_isText_crowded :
    isDirective (";#".toList ++ crowded) = true
    ∧ decode (";#".toList ++ crowded) = .ok (.ok
        { kind := .closing
          payload := [
            ("a\x7d".toList, .object [("code".toList, .array [.object []])]),
            ("endcode".toList, .string "\x7b\\".toList),
            ("srcline".toList, .bool true)] }) := by
  have hdepth : Platform.depth = 990 := rfl
  have hread : Json.read crowded = .ok (.object [
      ("a\x7d".toList, .object [("code".toList, .array [.object []])]),
      ("endcode".toList, .string "\x7b\\".toList),
      ("srcline".toList, .bool true)]) := by
    unfold Json.read
    rw [hdepth]
    cbv
  obtain ⟨hdirective, -, hdecode⟩ :=
    decode_of_isText (by decide) (by decide) (Json.read_eq_ok_iff.1 hread)
  exact ⟨hdirective (by simp), hdecode⟩

end Directive

end ContractAsm
