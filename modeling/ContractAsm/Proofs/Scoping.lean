-- SUMMARY: When an assembly succeeds: every reference has a location and every text has bytes.
import ContractAsm.Proofs.Listing
import ContractAsm.Proofs.Reading

/-!
# Scoping

Unless it runs into a limit of conversion, an assembly succeeds just if every reference of the
source has a location in the scopes in front of it, and there are bytes for what the selectors hash
and for the object code. Half of a surrogate pair has none, and a location may be such a half.

If the assembly fails, the first line with something wrong in it is what the error is about, and
nothing else comes out.
-/

namespace ContractAsm

open Text

/-! ## Failures of an assembly -/

section Failures

variable [Platform] {verbose : Bool} {filename : String} {source : Text}

theorem ObjectCode.failsByLimit_generate (symbols : SymbolTable) (statements : List Statement) :
    (generate symbols statements).FailsByLimit :=
  .bind (.ofConversion _) fun _ => .of_ok rfl

/-- What an assembly fails at is a limit, or the failure of its listing, or a half in the object
code. -/
theorem Assembly.ofSource_eq_error {e : Failure}
    (h : (ofSource verbose filename source).result = .error e) :
    (∃ l, e = .limit l) ∨ (Listing.ofSource filename source).result = .error e
      ∨ ∃ l codes, (Listing.ofSource filename source).result = .ok l
        ∧ ObjectCode.encodeStatements l.symbols l.statements = .ok codes
        ∧ (trim (ofLines codes)).any isHalf = true
        ∧ e = .encoding (halfFault (trim (ofLines codes))) := by
  unfold ofSource at h
  rw [Logged.result_bind] at h
  cases hlisting : (Listing.ofSource filename source).result with
  | error cause =>
    rw [hlisting] at h
    cases h
    exact .inr (.inl rfl)
  | ok l =>
    rw [hlisting] at h
    change (_ >>= _ : Logged Failure Assembly).result = .error e at h
    rw [Logged.result_bind] at h
    cases hcode : (ObjectCode.generate l.symbols l.statements).result with
    | error cause =>
      rw [hcode] at h
      cases h
      exact .inl (ObjectCode.failsByLimit_generate _ _ e hcode)
    | ok code =>
      rw [hcode] at h
      change (_ >>= _ : Logged Failure Assembly).result = .error e at h
      obtain ⟨codes, hcodes, rfl⟩ := ObjectCode.result_generate.1 hcode
      cases hhalves : (trim (ofLines codes)).any isHalf with
      | false =>
        rw [checkHalves_of_any_eq_false hhalves] at h
        cases h
      | true =>
        rw [checkHalves_of_any hhalves] at h
        cases h
        exact .inr (.inr ⟨l, codes, rfl, hcodes, hhalves, rfl⟩)

end Failures

/-- A diagnostic starts with its headline. -/
theorem Diagnostic.headline_render (d : Diagnostic) : d.headline.toList <+: d.render.toList := by
  obtain ⟨rest, hrest⟩ :=
    exists_ofLines_cons d.headline.toList ((d.excerptLines ++ d.hintLine).map String.toList)
  refine ⟨rest, hrest.symm.trans ?_⟩
  rw [render, String.toList_intercalate, List.cons_append, List.map_cons]
  rfl

namespace Source

/-! ## Conditions on a source -/

/-- What an error says of a reference: where it stands, and that it is none. -/
def Place.complaint (x : Place) (filename : String) (start : Nat) (name : Text) : String :=
  let place := s!"{filename}:{x.number}:{start + 1}"
  let fault := s!"invalid variable reference '{String.ofList (Variable.token name)}'"
  s!"{place}: error: {fault}"

section Conditions

variable [Platform] {filename : String} {ls : List Text}

/-- Every reference has a location in the scopes in front of it. -/
def Scoped (ls : List Text) : Prop :=
  ∀ x ∈ places ls, ∀ r ∈ x.references, (x.location? r.2).isSome = true

/-- Whether there are bytes for what the selectors of a line hash. -/
def Place.hashable (x : Place) : Bool :=
  (Listing.hashed x.line).all fun t => !t.any isHalf

/-- There are bytes for what all selectors hash. -/
def Hashable (ls : List Text) : Prop :=
  ∀ x ∈ places ls, x.hashable = true

/-- There are bytes for the object code. -/
def Writable (ls : List Text) : Prop :=
  ∀ codes, ObjectCode.encodeStatements (symbols ls) (statements ls) = .ok codes →
    (trim (ofLines codes)).any isHalf = false

/-- Whether something is wrong with a line. -/
def Place.isFaulty (x : Place) : Bool :=
  !x.hashable || x.unresolved?.isSome

/-- What an assembly can fail with, limits apart. Lines are read one after the other, so the first
one with something wrong in it decides, and in it the selectors come before the references. The
object code is made when nothing is wrong with any line. -/
inductive FailsWith (filename : String) (ls : List Text) : String → Prop where
  | reference {x : Place} {start : Nat} {name : Text} {message : String}
      (hfirst : (places ls).find? Place.isFaulty = some x) (hhashable : x.hashable = true)
      (hunresolved : x.unresolved? = some (start, name))
      (hcomplaint : (x.complaint filename start name).toList <+: message.toList) :
      FailsWith filename ls message
  | selector {x : Place} {t : Text} (hfirst : (places ls).find? Place.isFaulty = some x)
      (hhashed : (Listing.hashed x.line).find? (·.any isHalf) = some t) :
      FailsWith filename ls s!"internal error: {(halfFault t).message}"
  | code {codes : List Text} (hscoped : Scoped ls) (hhashable : Hashable ls)
      (hcodes : ObjectCode.encodeStatements (symbols ls) (statements ls) = .ok codes)
      (hhalves : (trim (ofLines codes)).any isHalf = true) :
      FailsWith filename ls s!"internal error: {(halfFault (trim (ofLines codes))).message}"

theorem Place.unresolved?_eq_none_iff {x : Place} :
    x.unresolved? = none ↔ ∀ r ∈ x.references, (x.location? r.2).isSome = true := by
  simp [unresolved?, List.find?_eq_none, Option.isSome_iff_ne_none]

theorem Place.hashable_iff {x : Place} :
    x.hashable = true ↔ Listing.checkLine x.line = .ok () := by
  simp [hashable, Listing.checkLine_eq_ok_iff]

theorem Place.isFaulty_eq_false_iff {x : Place} :
    x.isFaulty = false ↔ x.unresolved? = none ∧ x.hashable = true := by
  simp [isFaulty, and_comm]

theorem Place.fault?_eq_none_iff_not_isFaulty {x : Place} :
    x.fault? filename = none ↔ x.isFaulty = false := by
  rw [fault?_eq_none_iff, isFaulty_eq_false_iff, hashable_iff, and_comm]

theorem scoped_and_hashable_iff :
    Scoped ls ∧ Hashable ls ↔ ∀ x ∈ places ls, x.isFaulty = false := by
  simp only [Scoped, Hashable, ← Place.unresolved?_eq_none_iff, Place.isFaulty_eq_false_iff,
    forall₂_and]

theorem find?_isFaulty_eq_none (h : Scoped ls ∧ Hashable ls) :
    (places ls).find? Place.isFaulty = none :=
  List.find?_eq_none.2 fun x hx => by simp [scoped_and_hashable_iff.1 h x hx]

/-- Nothing is wrong with the lines of a listing. -/
theorem scoped_and_hashable_of_listing {source : Text} {l : Listing}
    (h : (Listing.ofSource filename source).result = .ok l) :
    Scoped (lines source) ∧ Hashable (lines source) :=
  scoped_and_hashable_iff.2 fun x hx =>
    Place.fault?_eq_none_iff_not_isFaulty.1 ((listing_eq h).2 x hx).1

/-- The first line with something wrong in it. -/
theorem find?_isFaulty {e : Failure}
    (h : (places ls).findSome? (·.fault? filename) = some e) :
    ∃ x, (places ls).find? Place.isFaulty = some x ∧ x.fault? filename = some e := by
  obtain ⟨before, x, after, hplaces, hx, hbefore⟩ := List.findSome?_eq_some_iff.1 h
  refine ⟨x, List.find?_eq_some_iff_append.2 ⟨?_, before, after, hplaces, ?_⟩, hx⟩
  · by_contra hfaulty
    have hnone : x.fault? filename = none :=
      Place.fault?_eq_none_iff_not_isFaulty.2 (Bool.not_eq_true _ ▸ hfaulty)
    cases hnone.symm.trans hx
  · intro y hy
    rw [Place.fault?_eq_none_iff_not_isFaulty.1 (hbefore y hy)]
    rfl

theorem Place.headline_undefined (x : Place) (filename : String) (t : Text) (start : Nat)
    (name : Text) : ((x.context filename).undefined t (start, name)).diagnostic.headline
      = x.complaint filename start name :=
  rfl

end Conditions

/-! ## Outcomes -/

section Outcome

variable [Platform] {verbose : Bool} {filename : String} {source : Text} {ls : List Text}

/-- What an outcome says of a failure. -/
def shown : Failure → String
  | .undefinedVariable u => u.diagnostic.render
  | e => s!"internal error: {e.message}"

theorem assemble_of_error {e : Failure}
    (h : (Assembly.ofSource verbose filename source).result = .error e) :
    (assemble verbose filename source).2 = .failed (shown e) := by
  cases e with
  | undefinedVariable u => simp only [assemble, Logged.toOutcome, h, shown]
  | limit l => simp only [assemble, Logged.toOutcome, h, shown]
  | encoding f => simp only [assemble, Logged.toOutcome, h, shown]

/-- One of the conditions is violated by whatever an assembly fails with. -/
theorem FailsWith.not_and {message : String} (h : FailsWith filename ls message) :
    ¬ (Scoped ls ∧ Hashable ls ∧ Writable ls) := by
  rintro ⟨hscoped, hhashable, hwritable⟩
  have hnone := find?_isFaulty_eq_none ⟨hscoped, hhashable⟩
  cases h with
  | reference hfirst => cases hnone.symm.trans hfirst
  | selector hfirst => cases hnone.symm.trans hfirst
  | code _ _ hcodes hhalves => cases hhalves.symm.trans (hwritable _ hcodes)

/-- An undefined variable is the first reference of its line that has no location. -/
theorem Place.undefined_of_fault? {x : Place} {u : UndefinedVariable}
    (h : x.fault? filename = some (.undefinedVariable u)) :
    x.hashable = true ∧ ∃ start name, x.unresolved? = some (start, name)
      ∧ (x.complaint filename start name).toList <+: u.diagnostic.render.toList := by
  unfold fault? at h
  split at h
  · cases h
  · next hcheck =>
    obtain ⟨t, -, hmap⟩ := Option.bind_eq_some_iff.1 h
    obtain ⟨⟨start, name⟩, hunresolved, hu⟩ := Option.map_eq_some_iff.1 hmap
    cases hu
    refine ⟨hashable_iff.2 hcheck, start, name, hunresolved, ?_⟩
    rw [← x.headline_undefined filename t]
    exact Diagnostic.headline_render _

/-- What cannot be hashed is the first argument of a selector with a half in it. -/
theorem Place.hashed_of_fault? {x : Place} {f : EncodeFault}
    (h : x.fault? filename = some (.encoding f)) :
    ∃ t, (Listing.hashed x.line).find? (·.any isHalf) = some t ∧ f = halfFault t := by
  unfold fault? at h
  split at h
  · next hcheck =>
    cases h
    exact Literal.find?_of_checkArguments hcheck
  · obtain ⟨t, -, hmap⟩ := Option.bind_eq_some_iff.1 h
    obtain ⟨r, -, hr⟩ := Option.map_eq_some_iff.1 hmap
    cases hr

theorem failsWith_of_error {e : Failure}
    (h : (Assembly.ofSource verbose filename source).result = .error e)
    (hlimit : ∀ l, e ≠ .limit l) : FailsWith filename (lines source) (shown e) := by
  rcases Assembly.ofSource_eq_error h with
    ⟨l, hl⟩ | hlisting | ⟨l, codes, hlisting, hcodes, hhalves, rfl⟩
  · exact absurd hl (hlimit l)
  · obtain ⟨x, hfirst, hx⟩ := find?_isFaulty (listing_fault hlisting hlimit)
    cases e with
    | limit l => exact absurd rfl (hlimit l)
    | undefinedVariable u =>
      obtain ⟨hhashable, start, name, hunresolved, hcomplaint⟩ := Place.undefined_of_fault? hx
      exact .reference hfirst hhashable hunresolved hcomplaint
    | encoding f =>
      obtain ⟨t, ht, rfl⟩ := Place.hashed_of_fault? hx
      exact .selector hfirst ht
  · obtain ⟨hscoped, hhashable⟩ := scoped_and_hashable_of_listing hlisting
    obtain ⟨rfl, -⟩ := listing_eq hlisting
    exact .code hscoped hhashable hcodes hhalves

/-- An assembled program meets the conditions, and is made of the statements with their references
replaced. -/
theorem sound_of_assembly {a : Assembly}
    (h : (Assembly.ofSource verbose filename source).result = .ok a) :
    (Scoped (lines source) ∧ Hashable (lines source) ∧ Writable (lines source))
      ∧ ∃ l codes, (Listing.ofSource filename source).result = .ok l
        ∧ l.statements = statements (lines source) ∧ l.symbols = symbols (lines source)
        ∧ ObjectCode.encodeStatements l.symbols l.statements = .ok codes
        ∧ a.objectCode = trim (ofLines codes) := by
  obtain ⟨l, codes, hlisting, hcodes, hhalves, rfl⟩ := Assembly.ofSource_eq_ok_iff.1 h
  obtain ⟨hscoped, hhashable⟩ := scoped_and_hashable_of_listing hlisting
  obtain ⟨rfl, -⟩ := listing_eq hlisting
  have hwritable : Writable (lines source) := by
    intro others hothers
    cases hcodes.symm.trans hothers
    exact hhalves
  exact ⟨⟨hscoped, hhashable, hwritable⟩, _, codes, hlisting, rfl, rfl, hcodes, rfl⟩

/-- Unless it runs into a limit, an assembly succeeds just if every reference has a location in the
scopes in front of it, and there are bytes for what is hashed and for the object code. The
statements then have their references replaced: by the current location, or by the global one where
there is no other. If the assembly fails, the error is about the first line with something wrong in
it: it names the first reference without a location and the number of the line, unless the line
hashes what has no bytes. If nothing is wrong with any line, there are no bytes for the object code.
Nothing else comes out of a failure. -/
theorem assemble_scoped (verbose : Bool) (filename : String) (source : Text)
    (hlimit : ∀ l, (Assembly.ofSource verbose filename source).result ≠ .error (.limit l)) :
    ((assemble verbose filename source).2.success = true
      ↔ Scoped (lines source) ∧ Hashable (lines source) ∧ Writable (lines source))
    ∧ ((assemble verbose filename source).2.success = true →
      ∃ l codes, (Listing.ofSource filename source).result = .ok l
        ∧ l.statements = statements (lines source) ∧ l.symbols = symbols (lines source)
        ∧ ObjectCode.encodeStatements l.symbols l.statements = .ok codes
        ∧ (assemble verbose filename source).2.objectCode = trim (ofLines codes))
    ∧ ((assemble verbose filename source).2.success = false →
      (∃ message, (assemble verbose filename source).2.error? = some message
        ∧ FailsWith filename (lines source) message)
      ∧ (assemble verbose filename source).2.bytecode = []
      ∧ (assemble verbose filename source).2.hash = []
      ∧ (assemble verbose filename source).2.objectCode = []
      ∧ (assemble verbose filename source).2.debugInfo = []) := by
  cases hresult : (Assembly.ofSource verbose filename source).result with
  | ok a =>
    obtain ⟨hsound, hcode⟩ := sound_of_assembly hresult
    simp only [assemble, Logged.toOutcome, hresult]
    exact ⟨iff_of_true rfl hsound, fun _ => hcode, fun hfailed => by cases hfailed⟩
  | error e =>
    have hfails : FailsWith filename (lines source) (shown e) :=
      failsWith_of_error hresult fun l hl => hlimit l (hl ▸ hresult)
    rw [assemble_of_error hresult]
    refine ⟨iff_of_false Bool.false_ne_true hfails.not_and, ?_, fun _ => ?_⟩
    · intro hok
      cases hok
    · exact ⟨⟨shown e, rfl, hfails⟩, rfl, rfl, rfl, rfl⟩

/-- Whether a result is that of an undefined variable. -/
def isUndefined {α : Type} : Except Failure α → Bool
  | .error (.undefinedVariable _) => true
  | _ => false

omit [Platform] in
theorem exists_of_isUndefined {α : Type} {x : Except Failure α} (h : isUndefined x = true) :
    ∃ u, x = .error (.undefinedVariable u) := by
  unfold isUndefined at h
  split at h
  · exact ⟨_, rfl⟩
  · cases h

end Outcome

/-- Two regions. The second one declares a variable of the first one again, and another without a
location. -/
def shadowing : List Text := [
  ";#\x7b\"code\":1,\"vars\":[\x7b\"a\":\x7b\"loc\":\"gi0,\"\x7d,\"b\":\x7b\"loc\":\"gi1,\"\x7d\x7d]\x7d".toList,
  "EVAL8 \\a,x01,".toList,
  ";#\x7b\"code\":2,\"vars\":[\x7b\"a\":\x7b\"loc\":\"fi0,\"\x7d,\"b\":\x7b\x7d\x7d]\x7d".toList,
  "EVAL8 \\a,\\b,".toList]

/-- The same with a line behind it, two references of which have no location. -/
def unresolved : List Text :=
  shadowing ++ ["IF \\b,\\c,\\d,".toList]

theorem assemble_scoped_shadowing :
    (∃ l, (Listing.ofSource "main.asm" (ofLines shadowing)).result = .ok l
      ∧ l.statements = [⟨"EVAL8 gi0,x01,".toList, 0, 2⟩, ⟨"EVAL8 fi0,gi1,".toList, 1, 4⟩])
    ∧ ∃ message, (assemble false "main.asm" (ofLines unresolved)).2.error? = some message
      ∧ "main.asm:5:7: error: invalid variable reference '\\c,'".toList <+: message.toList := by
  constructor
  · obtain ⟨a, ha⟩ := exists_of_isOk
      (x := (Assembly.ofSource false "main.asm" (ofLines shadowing)).result) (by decide +kernel)
    have hassembled : (assemble false "main.asm" (ofLines shadowing)).2.success = true := by
      simp only [assemble, Logged.toOutcome, ha]
      rfl
    obtain ⟨-, hreplaced, -⟩ := assemble_scoped false "main.asm" (ofLines shadowing) (by simp [ha])
    obtain ⟨l, codes, hlisting, hstatements, -⟩ := hreplaced hassembled
    exact ⟨l, hlisting, hstatements.trans (by decide +kernel)⟩
  · have hfirst : ((places (lines (ofLines unresolved))).find? Place.isFaulty).map
        (fun x => (x.number, x.unresolved?, Listing.hashed x.line))
          = some (5, some (6, ['c']), []) := by
      decide +kernel
    obtain ⟨u, hu⟩ := exists_of_isUndefined
      (x := (Assembly.ofSource false "main.asm" (ofLines unresolved)).result) (by decide +kernel)
    obtain ⟨-, -, hfailed⟩ := assemble_scoped false "main.asm" (ofLines unresolved) (by simp [hu])
    obtain ⟨⟨message, hmessage, hfails⟩, -⟩ := hfailed (by rw [assemble_of_error hu]; rfl)
    refine ⟨message, hmessage, ?_⟩
    cases hfails with
    | @reference x start name _ hfind _ hunresolved hcomplaint =>
      rw [hfind, Option.map_some, hunresolved] at hfirst
      obtain ⟨hnumber, ⟨rfl, rfl⟩, -⟩ :
          x.number = 5 ∧ (start = 6 ∧ name = ['c']) ∧ Listing.hashed x.line = [] := by
        simpa using hfirst
      have htext : x.complaint "main.asm" 6 ['c']
          = "main.asm:5:7: error: invalid variable reference '\\c,'" := by
        rw [Place.complaint, hnumber]
        decide +kernel
      rwa [htext] at hcomplaint
    | selector hfind hhashed =>
      rw [hfind] at hfirst
      simp only [Option.map_some, Option.some.injEq, Prod.mk.injEq] at hfirst
      rw [hfirst.2.2] at hhashed
      cases hhashed
    | code hscoped hhashable =>
      rw [find?_isFaulty_eq_none ⟨hscoped, hhashable⟩] at hfirst
      cases hfirst

/-- A region with a variable whose location is one half of a surrogate pair. -/
def loneHalf : List Text := [
  ";#\x7b\"code\":\"f\",\"vars\":[\x7b\"v\":\x7b\"loc\":\"\\ud800\"\x7d\x7d]\x7d".toList,
  "EVAL8 \\v,".toList]

/-- The only reference has a location, but there are no bytes for the object code. -/
theorem assemble_unwritable :
    Scoped (lines (ofLines loneHalf))
      ∧ (assemble false "<input>" (ofLines loneHalf)).2.success = false
      ∧ (assemble false "<input>" (ofLines loneHalf)).2.error?
        = some ("internal error: 'utf-8' codec can't encode character '\\ud800' in position 6: "
          ++ "surrogates not allowed") := by
  refine ⟨?_, ?_, ?_⟩
  · unfold Scoped
    decide +kernel
  · decide +kernel
  · decide +kernel

end Source

end ContractAsm
