-- SUMMARY: The settings that an environment asks for, and the reports about it.
import ContractAsm.Proofs.Numeral
import ContractAsm.Settings

/-!
# Settings by variables

Every setting comes from a variable of its own. What the text of a variable stands for is said
without regard to how it is read, and a variable whose text stands for nothing is reported and
leaves the default. The one thing that can go wrong is an indentation too wide to be made: its width
is an integer like any other, so it is not taken for a text that stands for nothing.
-/

namespace ContractAsm.Settings

open Text

/-! ## What variables stand for -/

/-- The words for a truth value. -/
def switchWords : Bool → List String
  | true => ["1", "true", "yes", "on"]
  | false => ["0", "false", "no", "off"]

/-- A text that is a truth value: one of its words in any case, with blanks around it. -/
def IsSwitch (t : Text) (b : Bool) : Prop :=
  ∃ word ∈ switchWords b, toSmall (trim t) = word.toList

/-- A text that is the name of a level, in any case. -/
def IsLevelName (t : Text) (l : Level) : Prop :=
  toCapitals t = l.name.toList

/-- A text that is a width: an integer that is not negative. -/
def IsWidth (t : Text) (n : Nat) : Prop :=
  Numeral.IsInteger t n

/-- A text that names a coding. It stands for itself. -/
def IsCodingName (t name : Text) : Prop :=
  name = t ∧ (Charset.ofName? t).isSome = true

section Meaning

variable {α : Type} {Means : Text → α → Prop} {var : Option Text} {default a b : α}

/-- A variable that is set, is not empty, and stands for a value. -/
def Gives (Means : Text → α → Prop) (var : Option Text) (a : α) : Prop :=
  ∃ value, var = some value ∧ value ≠ [] ∧ Means value a

/-- A setting is the value that its variable stands for, or the default if it stands for none. -/
def Takes (Means : Text → α → Prop) (default : α) (var : Option Text) (a : α) : Prop :=
  Gives Means var a ∨ (∀ b, ¬Gives Means var b) ∧ a = default

/-- A variable that is set and is not empty, but stands for nothing. -/
def Meaningless (Means : Text → α → Prop) (var : Option Text) (value : Text) : Prop :=
  var = some value ∧ value ≠ [] ∧ ∀ a, ¬Means value a

end Meaning

/-- The report of a text that stands for nothing. -/
def invalid (name : String) (value : Text) : LogEntry :=
  ⟨.warning, s!"Invalid {name}: {String.ofList value}"⟩

/-- Settings that follow an environment: every one of them its own variable, and the suffixes
nothing. -/
structure Follows (env : Environment) (s : Settings) : Prop where
  verbose : Takes IsSwitch ({} : Settings).verbose env.verbose s.verbose
  logLevel : Takes IsLevelName ({} : Settings).logLevel env.logLevel s.logLevel
  indentWidth : Takes IsWidth ({} : Settings).indentWidth env.indent s.indentWidth
  encoding : Takes IsCodingName ({} : Settings).encoding env.encoding s.encoding
  suffixes : s.bytecodeSuffix = ({} : Settings).bytecodeSuffix
    ∧ s.hashSuffix = ({} : Settings).hashSuffix ∧ s.objectSuffix = ({} : Settings).objectSuffix
    ∧ s.debugSuffix = ({} : Settings).debugSuffix

/-- The reports that an environment is due. -/
inductive Reported (env : Environment) : LogEntry → Prop where
  | verbose {value : Text} : Meaningless IsSwitch env.verbose value →
      Reported env (invalid Environment.verboseName value)
  | logLevel {value : Text} : Meaningless IsLevelName env.logLevel value →
      Reported env (invalid Environment.logLevelName value)
  | indent {value : Text} : Meaningless IsWidth env.indent value →
      Reported env (invalid Environment.indentName value)
  | encoding {value : Text} : Meaningless IsCodingName env.encoding value →
      Reported env (invalid Environment.encodingName value)

/-! ## Reading a variable -/

/-- A switch is read as what it means. -/
theorem readVerbose?_eq_some_iff {t : Text} {b : Bool} :
    readVerbose? t = some b ↔ IsSwitch t b := by
  have hword : ∀ b, (switchWords b).any (·.toList == toSmall (trim t)) = true ↔ IsSwitch t b := by
    intro b
    rw [List.any_eq_true]
    exact exists_congr fun w => and_congr_right fun _ => by rw [beq_iff_eq, eq_comm]
  -- no word stands for both values
  have hone : IsSwitch t true → ¬IsSwitch t false := by
    have hapart : ∀ w ∈ switchWords true, ∀ w' ∈ switchWords false, w.toList ≠ w'.toList := by
      decide
    rintro ⟨w, hw, hwt⟩ ⟨w', hw', hwt'⟩
    exact hapart w hw w' hw' (hwt.symm.trans hwt')
  have hread : readVerbose? t
      = if (switchWords true).any (·.toList == toSmall (trim t)) then some true
        else if (switchWords false).any (·.toList == toSmall (trim t)) then some false
        else none := rfl
  rw [hread]
  split
  · next h =>
    have htrue := (hword true).1 h
    cases b with
    | true => exact iff_of_true rfl htrue
    | false => exact iff_of_false (by simp) (hone htrue)
  · next h =>
    have htrue := mt (hword true).2 h
    split
    · next h =>
      have hfalse := (hword false).1 h
      cases b with
      | true => exact iff_of_false (by simp) htrue
      | false => exact iff_of_true rfl hfalse
    · next h =>
      have hfalse := mt (hword false).2 h
      cases b with
      | true => exact iff_of_false (by simp) htrue
      | false => exact iff_of_false (by simp) hfalse

/-- The name of a level is read as that level. -/
theorem readLevel?_eq_some_iff {t : Text} {l : Level} :
    readLevel? t = some l ↔ IsLevelName t l := by
  have hname : ∀ l l' : Level, l.name.toList = l'.name.toList → l = l' := by
    intro l l'
    cases l <;> cases l' <;> decide
  unfold readLevel? IsLevelName
  constructor
  · intro h
    have hfound := List.find?_some h
    exact (beq_iff_eq.1 hfound).symm
  · intro h
    cases hfind : Level.all.find? fun l => l.name.toList == toCapitals t with
    | none =>
      have hmem : l ∈ Level.all := by cases l <;> decide
      exact absurd (beq_iff_eq.2 h.symm) (List.find?_eq_none.1 hfind l hmem)
    | some l' =>
      have hfound := List.find?_some hfind
      rw [hname l' l ((beq_iff_eq.1 hfound).trans h)]

/-- A width is read as its number. -/
theorem readWidth?_eq_some_iff {t : Text} {n : Nat} : readWidth? t = some n ↔ IsWidth t n := by
  rw [IsWidth, ← Numeral.ofSetting?_eq_some_iff, readWidth?]
  split
  · next m hm =>
    rw [hm, Option.some_inj, Option.some_inj]
    exact Int.ofNat_inj.symm
  · next hother =>
    simp only [reduceCtorEq, false_iff]
    exact fun h => hother n h

/-- A name is taken as it is written. -/
def readCoding? (t : Text) : Option Text :=
  (Charset.ofName? t).map fun _ => t

/-- The name of an encoding is read as that encoding. -/
theorem readCoding?_eq_some_iff {t name : Text} :
    readCoding? t = some name ↔ IsCodingName t name := by
  unfold readCoding? IsCodingName
  cases Charset.ofName? t with
  | none => simp
  | some charset => simp [eq_comm]

section Reading

variable {α : Type} {Means : Text → α → Prop} {read? : Text → Option α} {default a : α}
  {var : Option Text}

/-- What is read of a variable. -/
def given? (read? : Text → Option α) : Option Text → Option α
  | none => none
  | some [] => none
  | some value => read? value

/-- A reader that agrees with the meaning of texts takes what a variable gives. -/
theorem given?_eq_some_iff (hread : ∀ {t a}, read? t = some a ↔ Means t a) :
    given? read? var = some a ↔ Gives Means var a := by
  unfold given? Gives
  split
  · simp
  · simp
  · next value hne =>
    rw [hread]
    exact ⟨fun h => ⟨value, rfl, hne, h⟩, by rintro ⟨_, ⟨⟩, -, h⟩; exact h⟩

/-- A setting takes the value that its variable gives, or else its default. -/
theorem takes_given? (hread : ∀ {t a}, read? t = some a ↔ Means t a) (default : α)
    (var : Option Text) : Takes Means default var ((given? read? var).getD default) := by
  cases h : given? read? var with
  | some a => exact .inl ((given?_eq_some_iff hread).1 h)
  | none =>
    refine .inr ⟨fun b hb => ?_, rfl⟩
    rw [(given?_eq_some_iff hread).2 hb] at h
    cases h

/-- A setting takes no other value. -/
theorem Takes.eq (hread : ∀ {t a}, read? t = some a ↔ Means t a)
    (ha : Takes Means default var a) : a = (given? read? var).getD default := by
  rcases ha with ha | ⟨hnone, rfl⟩
  · rw [(given?_eq_some_iff hread).2 ha, Option.getD_some]
  · cases h : given? read? var with
    | none => rfl
    | some b => exact absurd ((given?_eq_some_iff hread).1 h) (hnone b)

/-- The reports about a variable: one if it is set to a text that cannot be read. -/
def complaints (name : String) (read? : Text → Option α) : Option Text → List LogEntry
  | none => []
  | some [] => []
  | some value => if (read? value).isNone then [invalid name value] else []

/-- There is a complaint just about a meaningless value. -/
theorem mem_complaints_iff (hread : ∀ {t a}, read? t = some a ↔ Means t a) {name : String}
    {e : LogEntry} :
    e ∈ complaints name read? var
      ↔ ∃ value, Meaningless Means var value ∧ e = invalid name value := by
  unfold complaints Meaningless
  split
  · simp
  · simp
  · next value hne =>
    have hnone : (read? value).isNone = true ↔ ∀ a, ¬Means value a := by
      rw [Option.isNone_iff_eq_none, Option.eq_none_iff_forall_ne_some]
      exact forall_congr' fun a => not_congr hread
    split
    · next h =>
      rw [List.mem_singleton]
      exact ⟨fun he => ⟨value, ⟨rfl, hne, hnone.1 h⟩, he⟩, by rintro ⟨_, ⟨⟨⟩, -⟩, he⟩; exact he⟩
    · next h =>
      refine iff_of_false List.not_mem_nil ?_
      rintro ⟨_, ⟨⟨⟩, -, hmeans⟩, -⟩
      exact h (hnone.2 hmeans)

/-- A setter that makes no reports is applied to what is read of the variable, or to the default. -/
theorem applyVariable_eq {name : String} {set : α → Logged WidthFault Settings}
    {f : α → Except WidthFault Settings} {s : Settings} (hset : ∀ a, set a = ⟨[], f a⟩)
    (hdefault : f default = .ok s) (var : Option Text) :
    applyVariable name read? set s var
      = ⟨complaints name read? var, f ((given? read? var).getD default)⟩ := by
  rcases var with _ | _ | ⟨c, value⟩
  · exact congrArg (Logged.mk []) hdefault.symm
  · exact congrArg (Logged.mk []) hdefault.symm
  · simp only [applyVariable, complaints, given?]
    cases read? (c :: value) with
    | some a => exact hset a
    | none => exact congrArg (Logged.mk [invalid name (c :: value)]) hdefault.symm

end Reading

/-! ## The whole environment -/

section Environment

variable (s : Settings) (var : Option Text)

theorem applyVariable_verbose :
    applyVariable Environment.verboseName readVerbose? (fun verbose => pure { s with verbose })
        s var
      = ⟨complaints Environment.verboseName readVerbose? var,
          .ok { s with verbose := (given? readVerbose? var).getD s.verbose }⟩ :=
  applyVariable_eq (f := fun verbose => .ok { s with verbose }) (fun _ => rfl) rfl var

theorem applyVariable_logLevel :
    applyVariable Environment.logLevelName readLevel? (fun logLevel => pure { s with logLevel })
        s var
      = ⟨complaints Environment.logLevelName readLevel? var,
          .ok { s with logLevel := (given? readLevel? var).getD s.logLevel }⟩ :=
  applyVariable_eq (f := fun logLevel => .ok { s with logLevel }) (fun _ => rfl) rfl var

/-- The width is the one setting that is checked once more after its variable is read. -/
theorem applyVariable_indent [Platform] (hwidth : s.indentWidth < Platform.memoryBound) :
    applyVariable Environment.indentName readWidth?
        (fun width => do return { s with indentWidth := ← Logged.ofExcept (checkWidth width) })
        s var
      = ⟨complaints Environment.indentName readWidth? var,
          (checkWidth ((given? readWidth? var).getD s.indentWidth)).map
            fun indentWidth => { s with indentWidth }⟩ := by
  refine applyVariable_eq
    (f := fun width => (checkWidth width).map fun indentWidth => { s with indentWidth }) ?_ ?_ var
  · intro width
    cases checkWidth width <;> rfl
  · rw [checkWidth_of_lt hwidth, Except.map]

theorem applyVariable_encoding :
    applyVariable Environment.encodingName Charset.ofName?
        (fun _ => pure { s with encoding := var.getD s.encoding }) s var
      = ⟨complaints Environment.encodingName readCoding? var,
          .ok { s with encoding := (given? readCoding? var).getD s.encoding }⟩ := by
  -- the text of the variable is what is read of it
  have hread : applyVariable Environment.encodingName Charset.ofName?
      (fun _ => pure { s with encoding := var.getD s.encoding }) s var
      = applyVariable Environment.encodingName readCoding?
        (fun encoding => pure { s with encoding }) s var := by
    rcases var with _ | _ | ⟨c, value⟩
    · rfl
    · rfl
    · simp only [applyVariable, readCoding?]
      cases Charset.ofName? (c :: value) <;> rfl
  rw [hread]
  exact applyVariable_eq (f := fun encoding => .ok { s with encoding }) (fun _ => rfl) rfl var

variable (env : Environment)

/-- The settings that an environment asks for. -/
def asked : Settings :=
  { verbose := (given? readVerbose? env.verbose).getD ({} : Settings).verbose
    logLevel := (given? readLevel? env.logLevel).getD ({} : Settings).logLevel
    indentWidth := (given? readWidth? env.indent).getD ({} : Settings).indentWidth
    encoding := (given? readCoding? env.encoding).getD ({} : Settings).encoding }

/-- The reports made before the width is checked. -/
def earlyComplaints : List LogEntry :=
  complaints Environment.verboseName readVerbose? env.verbose
    ++ complaints Environment.logLevelName readLevel? env.logLevel
    ++ complaints Environment.indentName readWidth? env.indent

/-- The settings are what was asked for, if the width can be used. -/
theorem ofEnvironment_eq [Platform] :
    ofEnvironment env = (do
      let indentWidth ← Logged.mk (earlyComplaints env) (checkWidth (asked env).indentWidth)
      Logged.mk (complaints Environment.encodingName readCoding? env.encoding)
        (.ok { asked env with indentWidth })) := by
  have hwidth : ({} : Settings).indentWidth < Platform.memoryBound := Platform.two_lt_memoryBound
  have hbind : ∀ {α β} (log : List LogEntry) (a : α) (f : α → Logged WidthFault β),
      (Logged.mk log (.ok a) >>= f) = ⟨log ++ (f a).log, (f a).result⟩ := fun _ _ _ => rfl
  -- the settings when the width is due: those of the first two variables, the rest by default
  have hindent := applyVariable_indent
    { asked env with
      indentWidth := ({} : Settings).indentWidth
      encoding := ({} : Settings).encoding }
    env.indent hwidth
  simp only [asked] at hindent
  unfold ofEnvironment
  refine (congrArg (· >>= _) (applyVariable_verbose {} env.verbose)).trans ?_
  simp only [applyVariable_logLevel, applyVariable_encoding, hbind, hindent, asked, earlyComplaints]
  cases checkWidth ((given? readWidth? env.indent).getD 2) with
  | error fault => simp [Except.map, Bind.bind, Logged.bind]
  | ok width => simp [Except.map, hbind]

/-- They are refused just if the width is too large, with one of two errors. -/
theorem result_ofEnvironment [Platform] :
    (ofEnvironment env).result
      = (if (asked env).indentWidth < Platform.memoryBound then .ok (asked env)
        else if (asked env).indentWidth < Platform.indexBound then .error .tooLong
        else .error .tooWide) := by
  rw [ofEnvironment_eq, checkWidth_eq]
  split
  · rfl
  · split <;> rfl

variable {env s}

/-- What is asked for follows the environment. -/
theorem follows_asked : Follows env (asked env) where
  verbose := takes_given? readVerbose?_eq_some_iff _ _
  logLevel := takes_given? readLevel?_eq_some_iff _ _
  indentWidth := takes_given? readWidth?_eq_some_iff _ _
  encoding := takes_given? readCoding?_eq_some_iff _ _
  suffixes := ⟨rfl, rfl, rfl, rfl⟩

/-- Nothing but what is asked for follows the environment. -/
theorem Follows.eq_asked (h : Follows env s) : s = asked env := by
  obtain ⟨hbytecode, hhash, hobject, hdebug⟩ := h.suffixes
  cases s
  rw [asked, Settings.mk.injEq]
  exact ⟨h.verbose.eq readVerbose?_eq_some_iff, h.logLevel.eq readLevel?_eq_some_iff,
    h.indentWidth.eq readWidth?_eq_some_iff, hbytecode, hhash, hobject, hdebug,
    h.encoding.eq readCoding?_eq_some_iff⟩

/-- The reports are the complaints about the variables. -/
theorem reported_iff {e : LogEntry} :
    Reported env e ↔ e ∈ earlyComplaints env
      ∨ e ∈ complaints Environment.encodingName readCoding? env.encoding := by
  simp only [earlyComplaints, List.mem_append, mem_complaints_iff readVerbose?_eq_some_iff,
    mem_complaints_iff readLevel?_eq_some_iff, mem_complaints_iff readWidth?_eq_some_iff,
    mem_complaints_iff readCoding?_eq_some_iff]
  constructor
  · rintro (h | h | h | h)
    · exact .inl (.inl (.inl ⟨_, h, rfl⟩))
    · exact .inl (.inl (.inr ⟨_, h, rfl⟩))
    · exact .inl (.inr ⟨_, h, rfl⟩)
    · exact .inr ⟨_, h, rfl⟩
  · rintro (((⟨_, h, rfl⟩ | ⟨_, h, rfl⟩) | ⟨_, h, rfl⟩) | ⟨_, h, rfl⟩)
    · exact .verbose h
    · exact .logLevel h
    · exact .indent h
    · exact .encoding h

end Environment

end ContractAsm.Settings
