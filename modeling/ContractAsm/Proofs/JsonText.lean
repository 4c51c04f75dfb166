-- SUMMARY: The grammar of JSON texts, and reading by it.
import ContractAsm.Proofs.JsonScalar

/-!
# JSON texts

The grammar of JSON texts, with the room that is left for containers inside of each other. A value
is read from a text just if the grammar gives the text that value, so no value is missed, whatever
objects, strings and blanks it holds.
-/

namespace ContractAsm.Json

open Text

variable [Platform]

/-! ## The grammar -/

def IsBlanks (b : Text) : Prop :=
  ∀ c ∈ b, isSpace c = true

/-- Puts members under their keys one after the other. Of those with one key the last value
counts. -/
def collect (done members : List (Text × Json)) : List (Text × Json) :=
  members.foldl (fun done m => put m.1 m.2 done) done

mutual

/-- The text of a value. -/
inductive IsValue : Nat → Text → Json → Prop where
  | scalar {room : Nat} {w : Text} {v : Json} : IsScalar w v → IsValue room w v
  | string {room : Nat} {w s : Text} : IsString w s → IsValue room w (.string s)
  | emptyObject {room : Nat} {b : Text} : IsBlanks b →
      IsValue (room + 1) ('{' :: (b ++ ['}'])) (.object [])
  | object {room : Nat} {w : Text} {members : List (Text × Json)} : IsMembers room w members →
      IsValue (room + 1) ('{' :: (w ++ ['}'])) (.object (collect [] members))
  | emptyArray {room : Nat} {b : Text} : IsBlanks b →
      IsValue (room + 1) ('[' :: (b ++ [']'])) (.array [])
  | array {room : Nat} {w : Text} {items : List Json} : IsElements room w items →
      IsValue (room + 1) ('[' :: (w ++ [']'])) (.array items)

/-- A value with blanks around it. -/
inductive IsElement : Nat → Text → Json → Prop where
  | mk {room : Nat} {before w after : Text} {v : Json} : IsBlanks before → IsValue room w v →
      IsBlanks after → IsElement room (before ++ (w ++ after)) v

inductive IsMember : Nat → Text → Text × Json → Prop where
  | mk {room : Nat} {before k after w key : Text} {v : Json} : IsBlanks before → IsString k key →
      IsBlanks after → IsElement room w v →
      IsMember room (before ++ (k ++ (after ++ ':' :: w))) (key, v)

/-- The members of an object that is not empty. -/
inductive IsMembers : Nat → Text → List (Text × Json) → Prop where
  | last {room : Nat} {w : Text} {m : Text × Json} : IsMember room w m → IsMembers room w [m]
  | next {room : Nat} {w ws : Text} {m : Text × Json} {members : List (Text × Json)} :
      IsMember room w m → IsMembers room ws members →
      IsMembers room (w ++ ',' :: ws) (m :: members)

/-- The items of an array that is not empty. -/
inductive IsElements : Nat → Text → List Json → Prop where
  | last {room : Nat} {w : Text} {v : Json} : IsElement room w v → IsElements room w [v]
  | next {room : Nat} {w ws : Text} {v : Json} {items : List Json} :
      IsElement room w v → IsElements room ws items →
      IsElements room (w ++ ',' :: ws) (v :: items)

end

/-- A whole JSON text. -/
def IsText (t : Text) (v : Json) : Prop :=
  IsElement Platform.depth t v

/-! ## Blanks -/

variable {room fuel : Nat} {b t w rest : Text} {v : Json} {members done : List (Text × Json)}
  {items : List Json}

omit [Platform] in
/-- Nothing but blanks is skipped. -/
theorem exists_blanks (t : Text) : ∃ b, IsBlanks b ∧ t = b ++ skipSpace t :=
  ⟨t.takeWhile isSpace, fun _ hc => List.mem_takeWhile_imp hc,
    List.takeWhile_append_dropWhile.symm⟩

omit [Platform] in
theorem IsBlanks.append {b' : Text} (hb : IsBlanks b) (hb' : IsBlanks b') : IsBlanks (b ++ b') :=
  fun c hc => (List.mem_append.1 hc).elim (hb c) (hb' c)

omit [Platform] in
theorem IsBlanks.skipSpace_append (hb : IsBlanks b) (ht : t.head?.any isSpace = false) :
    skipSpace (b ++ t) = t :=
  dropWhile_append_stop hb ht

/-- An element may stand behind more blanks. -/
theorem IsElement.behind_blanks (hb : IsBlanks b) (h : IsElement room w v) :
    IsElement room (b ++ w) v := by
  obtain ⟨hbefore, hvalue, hafter⟩ := h
  rw [← List.append_assoc]
  exact .mk (hb.append hbefore) hvalue hafter

/-- A member may stand behind more blanks. -/
theorem IsMember.behind_blanks {m : Text × Json} (hb : IsBlanks b) (h : IsMember room w m) :
    IsMember room (b ++ w) m := by
  obtain ⟨hbefore, hkey, hafter, hvalue⟩ := h
  rw [← List.append_assoc]
  exact .mk (hb.append hbefore) hkey hafter hvalue

theorem IsMembers.behind_blanks (hb : IsBlanks b) (h : IsMembers room w members) :
    IsMembers room (b ++ w) members := by
  cases h with
  | last hm => exact .last (hm.behind_blanks hb)
  | next hm hms =>
    rw [← List.append_assoc]
    exact .next (hm.behind_blanks hb) hms

theorem IsElements.behind_blanks (hb : IsBlanks b) (h : IsElements room w items) :
    IsElements room (b ++ w) items := by
  cases h with
  | last hv => exact .last (hv.behind_blanks hb)
  | next hv hvs =>
    rw [← List.append_assoc]
    exact .next (hv.behind_blanks hb) hvs

/-! ## What is read is in the grammar -/

/-- A key is a string, with a colon behind it. -/
theorem exists_key {key : Text} (h : readKey t = .ok (key, rest)) :
    ∃ k after b, t = k ++ (after ++ ':' :: (b ++ rest)) ∧ IsString k key ∧ IsBlanks after
      ∧ IsBlanks b := by
  unfold readKey at h
  split at h
  · next t =>
    split at h
    · cases h
    · next key' t' hstring =>
      obtain ⟨body, rfl, hbody⟩ := exists_body hstring
      split at h
      · next t'' hcolon =>
        cases h
        obtain ⟨after, hafter, ht'⟩ := exists_blanks t'
        obtain ⟨b, hb, ht''⟩ := exists_blanks t''
        refine ⟨'"' :: (body ++ ['"']), after, b, ?_, ⟨body, rfl, hbody⟩, hafter, hb⟩
        rw [← ht'', ← hcolon, ← ht']
        simp
      · cases h
  · cases h

/-- Readers with some fuel that take nothing but what is in the grammar. -/
structure Sound (fuel : Nat) : Prop where
  value : ∀ {room t v rest}, readValue fuel room t = .ok (v, rest) →
    ∃ w, t = w ++ rest ∧ IsValue room w v
  members : ∀ {room done t v rest}, readMembers fuel room done t = .ok (v, rest) →
    ∃ w members, t = w ++ '}' :: rest ∧ IsMembers room w members
      ∧ v = .object (collect done members)
  items : ∀ {room done t v rest}, readItems fuel room done t = .ok (v, rest) →
    ∃ w items, t = w ++ ']' :: rest ∧ IsElements room w items
      ∧ v = .array (done.reverse ++ items)

/-- One level of a value. -/
theorem Sound.value_succ (h : Sound fuel) (hread : readValue (fuel + 1) room t = .ok (v, rest)) :
    ∃ w, t = w ++ rest ∧ IsValue room w v := by
  unfold readValue at hread
  split at hread
  · split at hread
    · next hstring =>
      cases hread
      obtain ⟨body, rfl, hbody⟩ := exists_body hstring
      exact ⟨'"' :: (body ++ ['"']), by simp, .string ⟨body, rfl, hbody⟩⟩
    · cases hread
  · next t =>
    obtain ⟨b, hb, ht⟩ := exists_blanks t
    split at hread
    · cases hread
    · split at hread
      · next hskip =>
        cases hread
        rw [hskip] at ht
        exact ⟨'{' :: (b ++ ['}']), by simp [ht], .emptyObject hb⟩
      · obtain ⟨w, members, hw, hmembers, rfl⟩ := h.members hread
        rw [hw] at ht
        exact ⟨'{' :: (b ++ w ++ ['}']), by simp [ht], .object (hmembers.behind_blanks hb)⟩
  · next t =>
    obtain ⟨b, hb, ht⟩ := exists_blanks t
    split at hread
    · cases hread
    · split at hread
      · next hskip =>
        cases hread
        rw [hskip] at ht
        exact ⟨'[' :: (b ++ [']']), by simp [ht], .emptyArray hb⟩
      · obtain ⟨w, items, hw, hitems, rfl⟩ := h.items hread
        rw [hw] at ht
        exact ⟨'[' :: (b ++ w ++ [']']), by simp [ht], .array (hitems.behind_blanks hb)⟩
  · obtain ⟨w, ht, hscalar⟩ := isScalar_of_readScalar hread
    exact ⟨w, ht, .scalar hscalar⟩

/-- One more member of an object. -/
theorem Sound.members_succ (h : Sound fuel)
    (hread : readMembers (fuel + 1) room done t = .ok (v, rest)) :
    ∃ w members, t = w ++ '}' :: rest ∧ IsMembers room w members
      ∧ v = .object (collect done members) := by
  unfold readMembers at hread
  split at hread
  · cases hread
  · next key t' hkey =>
    obtain ⟨k, after, b, rfl, hstring, hafter, hb⟩ := exists_key hkey
    split at hread
    · cases hread
    · next x t'' hvalue =>
      obtain ⟨w, rfl, hw⟩ := h.value hvalue
      obtain ⟨b', hb', ht''⟩ := exists_blanks t''
      have hmember : IsMember room ([] ++ (k ++ (after ++ ':' :: (b ++ (w ++ b'))))) (key, x) :=
        .mk (by simp [IsBlanks]) hstring hafter (.mk hb hw hb')
      split at hread
      · next hskip =>
        cases hread
        rw [hskip] at ht''
        exact ⟨_, _, by simp [ht''], .last hmember, rfl⟩
      · next t''' hskip =>
        rw [hskip] at ht''
        obtain ⟨b'', hb'', ht'''⟩ := exists_blanks t'''
        obtain ⟨ws, members, hws, hmembers, rfl⟩ := h.members hread
        rw [hws] at ht'''
        exact ⟨_, _, by simp [ht'', ht'''], .next hmember (hmembers.behind_blanks hb''), rfl⟩
      · cases hread

/-- One more item of an array. -/
theorem Sound.items_succ (h : Sound fuel)
    (hread : readItems (fuel + 1) room items t = .ok (v, rest)) :
    ∃ w items', t = w ++ ']' :: rest ∧ IsElements room w items'
      ∧ v = .array (items.reverse ++ items') := by
  unfold readItems at hread
  split at hread
  · cases hread
  · next x t' hvalue =>
    obtain ⟨w, rfl, hw⟩ := h.value hvalue
    obtain ⟨b, hb, ht'⟩ := exists_blanks t'
    have helement : IsElement room ([] ++ (w ++ b)) x := .mk (by simp [IsBlanks]) hw hb
    split at hread
    · next hskip =>
      cases hread
      rw [hskip] at ht'
      exact ⟨_, _, by simp [ht'], .last helement, by simp⟩
    · next t'' hskip =>
      rw [hskip] at ht'
      obtain ⟨b', hb', ht''⟩ := exists_blanks t''
      obtain ⟨ws, items', hws, hitems, rfl⟩ := h.items hread
      rw [hws] at ht''
      exact ⟨_, _, by simp [ht', ht''], .next helement (hitems.behind_blanks hb'), by simp⟩
    · cases hread

/-- Whatever is read is in the grammar. -/
theorem sound (fuel : Nat) : Sound fuel := by
  induction fuel with
  | zero =>
    refine ⟨fun h => ?_, fun h => ?_, fun h => ?_⟩
    · cases h
    · cases h
    · cases h
  | succ fuel ih => exact ⟨ih.value_succ, ih.members_succ, ih.items_succ⟩

/-- A text that is read is in the grammar. -/
theorem isText_of_read (h : read t = .ok v) : IsText t v := by
  unfold read at h
  split at h
  · cases h
  · split at h
    · cases h
    · next x rest hvalue =>
      split at h
      · next hend =>
        cases h
        obtain ⟨before, hbefore, ht⟩ := exists_blanks t
        obtain ⟨w, hw, hvalue⟩ := (sound _).value hvalue
        obtain ⟨after, hafter, hrest⟩ := exists_blanks rest
        rw [List.isEmpty_iff.1 hend, List.append_nil] at hrest
        rw [hw, hrest] at ht
        rw [ht]
        exact .mk hbefore hvalue hafter
      · cases h

/-! ## What is in the grammar is read -/

/-- The characters that a value may start with. -/
def StartsValue (c : Char) : Prop :=
  c.isAlphanum = true ∨ c ∈ ['"', '{', '[', '-']

instance (c : Char) : Decidable (StartsValue c) :=
  inferInstanceAs (Decidable (_ ∨ _))

omit [Platform] in
theorem isSpace_iff {c : Char} : isSpace c = true ↔ c ∈ [' ', '\t', '\n', '\r'] := by
  simp [isSpace, or_assoc]

omit [Platform] in
/-- No value starts with a blank. -/
theorem StartsValue.isSpace_eq_false {c : Char} (h : StartsValue c) : isSpace c = false := by
  rw [Bool.eq_false_iff]
  intro hc
  simp only [isSpace_iff, List.mem_cons, List.not_mem_nil, or_false] at hc
  rcases hc with rfl | rfl | rfl | rfl
  all_goals exact absurd h (by decide)

omit [Platform] in
theorem IsBlanks.stops (hb : IsBlanks b) (ht : Stops t) : Stops (b ++ t) := by
  cases b with
  | nil => exact ht
  | cons c b =>
    rintro _ ⟨⟩
    have hstops : [' ', '\t', '\n', '\r'] ⊆ stops := by decide
    exact hstops (isSpace_iff.1 (hb c (List.mem_cons_self ..)))

omit [Platform] in
/-- A scalar starts with a letter, a digit or a sign. -/
theorem IsScalar.exists_cons (h : IsScalar w v) :
    ∃ c w', w = c :: w' ∧ (c.isAlphanum = true ∨ c = '-') := by
  rcases h with hconstant | ⟨n, ⟨f, e, rfl, hwhole, -⟩, -⟩
  · have hnames : ∀ name ∈ constants.map (·.1),
        name.head?.any (fun c => c.isAlphanum || c == '-') = true := by decide
    obtain ⟨c, hhead, hc⟩ := Option.any_eq_true _ _ |>.1 (hnames w (List.mem_map_of_mem hconstant))
    obtain ⟨w', rfl⟩ := List.head?_eq_some_iff.1 hhead
    exact ⟨c, w', rfl, by simpa using hc⟩
  · obtain ⟨d, ds, hds, hd⟩ := hwhole.1.exists_cons
    rw [hds, minus]
    split
    · exact ⟨'-', _, rfl, .inr rfl⟩
    · exact ⟨d, _, rfl, .inl (by simp [Char.isAlphanum, hd])⟩

/-- No value is empty. -/
theorem IsValue.exists_cons (h : IsValue room w v) : ∃ c w', w = c :: w' ∧ StartsValue c := by
  cases h with
  | scalar hscalar =>
    obtain ⟨c, w', rfl, hc⟩ := hscalar.exists_cons
    exact ⟨c, w', rfl, hc.imp_right (by rintro rfl; decide)⟩
  | string hstring =>
    obtain ⟨body, rfl, -⟩ := hstring
    exact ⟨_, _, rfl, .inr (by decide)⟩
  | emptyObject | object | emptyArray | array => exact ⟨_, _, rfl, .inr (by decide)⟩

/-- The blanks in front of an element are skipped. -/
theorem IsElement.skipSpace_append (h : IsElement room w v) (t : Text) :
    ∃ x after, IsValue room x v ∧ IsBlanks after ∧ x.length ≤ w.length
      ∧ skipSpace (w ++ t) = x ++ (after ++ t) := by
  obtain @⟨_, before, x, after, _, hbefore, hvalue, hafter⟩ := h
  obtain ⟨c, x', rfl, hc⟩ := hvalue.exists_cons
  refine ⟨c :: x', after, hvalue, hafter, by simp; omega, ?_⟩
  rw [List.append_assoc, List.append_assoc]
  exact hbefore.skipSpace_append (by simpa using hc.isSpace_eq_false)

theorem IsMembers.skipSpace_append (h : IsMembers room w members) (t : Text) :
    ∃ t', skipSpace (w ++ t) = '"' :: t' := by
  have hmember : ∀ {w m}, IsMember room w m → ∀ t, ∃ t', skipSpace (w ++ t) = '"' :: t' := by
    rintro _ _ @⟨_, before, _, after, x, _, _, hbefore, ⟨body, rfl, -⟩, -, -⟩ t
    rw [List.append_assoc, List.cons_append, List.cons_append]
    exact ⟨_, hbefore.skipSpace_append rfl⟩
  cases h with
  | last hm => exact hmember hm t
  | next hm _ =>
    rw [List.append_assoc]
    exact hmember hm _

theorem IsElements.skipSpace_append (h : IsElements room w items) (t : Text) :
    ∃ c t', skipSpace (w ++ t) = c :: t' ∧ StartsValue c := by
  have helement : ∀ {w v}, IsElement room w v → ∀ t, ∃ c t', skipSpace (w ++ t) = c :: t'
      ∧ StartsValue c := by
    intro w v hw t
    obtain ⟨x, after, hx, -, -, hskip⟩ := hw.skipSpace_append t
    obtain ⟨c, x', rfl, hc⟩ := hx.exists_cons
    exact ⟨c, _, hskip, hc⟩
  cases h with
  | last hv => exact helement hv t
  | next hv _ =>
    rw [List.append_assoc]
    exact helement hv _

/-- A string with a colon behind it is read as a key. -/
theorem readKey_append {k key after : Text} (hk : IsString k key) (hafter : IsBlanks after)
    (t : Text) : readKey (k ++ (after ++ ':' :: t)) = .ok (key, skipSpace t) := by
  obtain ⟨body, rfl, hbody⟩ := hk
  have hstring : readString (body ++ '"' :: (after ++ ':' :: t)) = .ok (key, after ++ ':' :: t) :=
    hbody.readString _
  have hcolon : skipSpace (after ++ ':' :: t) = ':' :: t := hafter.skipSpace_append rfl
  rw [List.cons_append, List.append_assoc, List.singleton_append, readKey]
  simp only [hstring, hcolon]

/-- Readers that take whatever is in the grammar and is not longer than their fuel. Members and
items need one more, for the character that closes them. -/
structure Complete (fuel : Nat) : Prop where
  value : ∀ {room w v rest}, IsValue room w v → w.length ≤ fuel → Stops rest →
    readValue fuel room (w ++ rest) = .ok (v, rest)
  members : ∀ {room w members done rest}, IsMembers room w members → w.length < fuel →
    readMembers fuel room done (skipSpace (w ++ '}' :: rest))
      = .ok (.object (collect done members), rest)
  items : ∀ {room w items done rest}, IsElements room w items → w.length < fuel →
    readItems fuel room done (skipSpace (w ++ ']' :: rest))
      = .ok (.array (done.reverse ++ items), rest)

section Step

variable (h : Complete fuel)
include h

/-- A value with blanks around it is read up to the mark behind the blanks. -/
theorem Complete.element (hw : IsElement room w v) (hlength : w.length ≤ fuel) {c : Char}
    (hc : c ∈ [',', '}', ']']) (rest : Text) :
    ∃ t, readValue fuel room (skipSpace (w ++ c :: rest)) = .ok (v, t)
      ∧ skipSpace t = c :: rest := by
  obtain ⟨x, after, hx, hafter, hxw, hskip⟩ := hw.skipSpace_append (c :: rest)
  have hstops : Stops (c :: rest) := by
    rintro _ ⟨⟩
    exact (by decide : [',', '}', ']'] ⊆ stops) hc
  have hspace : ∀ c ∈ [',', '}', ']'], isSpace c = false := by simp [isSpace]
  refine ⟨after ++ c :: rest, ?_, hafter.skipSpace_append (by simpa using hspace c hc)⟩
  rw [hskip]
  exact h.value hx (hxw.trans hlength) (hafter.stops hstops)

/-- A member is read up to what ends it. -/
theorem Complete.member {key : Text} (hw : IsMember room w (key, v)) (hlength : w.length ≤ fuel)
    {c : Char} (hc : c ∈ [',', '}', ']']) (rest : Text) :
    ∃ t t', readKey (skipSpace (w ++ c :: rest)) = .ok (key, t)
      ∧ readValue fuel room t = .ok (v, t') ∧ skipSpace t' = c :: rest := by
  obtain @⟨_, before, k, after, x, _, _, hbefore, hk, hafter, hx⟩ := hw
  have hkey : skipSpace (before ++ (k ++ (after ++ ':' :: x)) ++ c :: rest)
      = k ++ (after ++ ':' :: (x ++ c :: rest)) := by
    obtain ⟨body, rfl, -⟩ := hk
    rw [List.append_assoc, List.append_assoc, List.append_assoc, List.cons_append]
    exact hbefore.skipSpace_append rfl
  obtain ⟨t', hread, hskip⟩ := h.element hx (by simp at hlength; omega) hc rest
  refine ⟨skipSpace (x ++ c :: rest), t', ?_, hread, hskip⟩
  rw [hkey, readKey_append hk hafter]

/-- One more member of an object. -/
theorem Complete.members_succ (hmembers : IsMembers room w members)
    (hlength : w.length < fuel + 1) :
    readMembers (fuel + 1) room done (skipSpace (w ++ '}' :: rest))
      = .ok (.object (collect done members), rest) := by
  cases hmembers with
  | last hm =>
    obtain ⟨t, t', hkey, hread, hskip⟩ := h.member hm (by omega) (c := '}') (by decide) rest
    rw [readMembers]
    simp only [hkey, hread, hskip]
    rfl
  | @next _ w ws m members hm hms =>
    rw [List.length_append, List.length_cons] at hlength
    obtain ⟨t, t', hkey, hread, hskip⟩ :=
      h.member hm (by omega) (c := ',') (by decide) (ws ++ '}' :: rest)
    rw [List.append_assoc, List.cons_append, readMembers]
    simp only [hkey, hread, hskip]
    exact h.members hms (by omega)

/-- One more item of an array. -/
theorem Complete.items_succ {done : List Json} (hitems : IsElements room w items)
    (hlength : w.length < fuel + 1) :
    readItems (fuel + 1) room done (skipSpace (w ++ ']' :: rest))
      = .ok (.array (done.reverse ++ items), rest) := by
  cases hitems with
  | @last _ _ v hv =>
    obtain ⟨t, hread, hskip⟩ := h.element hv (by omega) (c := ']') (by decide) rest
    rw [readItems]
    simp only [hread, hskip, List.reverse_cons]
  | @next _ w ws v items hv hvs =>
    rw [List.length_append, List.length_cons] at hlength
    obtain ⟨t, hread, hskip⟩ := h.element hv (by omega) (c := ',') (by decide) (ws ++ ']' :: rest)
    rw [List.append_assoc, List.cons_append, readItems]
    simp only [hread, hskip]
    rw [h.items hvs (by omega), List.reverse_cons, List.append_assoc, List.singleton_append]

/-- One level of a value. -/
theorem Complete.value_succ (hvalue : IsValue room w v) (hlength : w.length ≤ fuel + 1)
    (hrest : Stops rest) : readValue (fuel + 1) room (w ++ rest) = .ok (v, rest) := by
  cases hvalue with
  | scalar hscalar =>
    have hread := hscalar.readScalar_append hrest
    obtain ⟨c, w', rfl, hc⟩ := hscalar.exists_cons
    unfold readValue
    -- the three other kinds of values start with marks of their own
    split
    · next heq =>
      obtain ⟨rfl, -⟩ := List.cons.inj heq
      exact absurd hc (by decide)
    · next heq =>
      obtain ⟨rfl, -⟩ := List.cons.inj heq
      exact absurd hc (by decide)
    · next heq =>
      obtain ⟨rfl, -⟩ := List.cons.inj heq
      exact absurd hc (by decide)
    · exact hread
  | string hstring =>
    obtain ⟨body, rfl, hbody⟩ := hstring
    rw [List.cons_append, List.append_assoc, List.singleton_append, readValue]
    simp only [hbody.readString]
  | @emptyObject room b hb =>
    have hskip : skipSpace (b ++ '}' :: rest) = '}' :: rest := hb.skipSpace_append rfl
    rw [List.cons_append, List.append_assoc, List.singleton_append, readValue]
    simp only [hskip]
  | @emptyArray room b hb =>
    have hskip : skipSpace (b ++ ']' :: rest) = ']' :: rest := hb.skipSpace_append rfl
    rw [List.cons_append, List.append_assoc, List.singleton_append, readValue]
    simp only [hskip]
  | @object room w members hmembers =>
    have hread : readMembers fuel room [] (skipSpace (w ++ '}' :: rest))
        = .ok (.object (collect [] members), rest) :=
      h.members hmembers (by simp at hlength; omega)
    -- behind the blanks there is a quote, so the object is not taken for an empty one
    obtain ⟨t, ht⟩ := hmembers.skipSpace_append ('}' :: rest)
    rw [List.cons_append, List.append_assoc, List.singleton_append, readValue]
    rw [ht] at hread ⊢
    exact hread
  | @array room w items hitems =>
    have hread : readItems fuel room [] (skipSpace (w ++ ']' :: rest)) = .ok (.array items, rest) :=
      h.items hitems (by simp at hlength; omega)
    obtain ⟨c, t, ht, hc⟩ := hitems.skipSpace_append (']' :: rest)
    rw [List.cons_append, List.append_assoc, List.singleton_append, readValue]
    rw [ht] at hread ⊢
    split
    · next heq =>
      obtain ⟨rfl, -⟩ := List.cons.inj heq
      exact absurd hc (by decide)
    · exact hread

end Step

/-- All of the grammar is read, with as much fuel as the text is long. -/
theorem complete (fuel : Nat) : Complete fuel := by
  induction fuel with
  | zero =>
    refine ⟨fun hvalue hlength _ => ?_, fun _ h => absurd h (Nat.not_lt_zero _),
      fun _ h => absurd h (Nat.not_lt_zero _)⟩
    obtain ⟨c, w', rfl, -⟩ := hvalue.exists_cons
    exact absurd hlength (Nat.not_succ_le_zero _)
  | succ fuel ih => exact ⟨ih.value_succ, ih.members_succ, ih.items_succ⟩

/-- No byte order mark stands in front of a text. -/
theorem IsText.head_ne (h : IsText t v) : t.head? ≠ some '\uFEFF' := by
  obtain @⟨_, before, w, after, _, hbefore, hvalue, -⟩ := h
  obtain ⟨c, w', rfl, hc⟩ := hvalue.exists_cons
  cases before with
  | nil =>
    rintro ⟨⟩
    exact absurd hc (by decide)
  | cons b before =>
    rintro ⟨⟩
    exact absurd (hbefore _ (List.mem_cons_self ..)) (by decide)

/-- A value is read from a text just if the grammar gives the text that value. -/
theorem read_eq_ok_iff : read t = .ok v ↔ IsText t v := by
  refine ⟨isText_of_read, fun h => ?_⟩
  have hbom := h.head_ne
  obtain ⟨w, after, hvalue, hafter, hlength, hskip⟩ := IsElement.skipSpace_append h []
  rw [List.append_nil, List.append_nil] at hskip
  have hread : readValue (2 * t.length + 2) Platform.depth (skipSpace t) = .ok (v, after) := by
    rw [hskip]
    exact (complete _).value hvalue (by omega) (by simpa using hafter.stops (t := []) nofun)
  have hend : skipSpace after = [] := by simpa using hafter.skipSpace_append (t := []) rfl
  unfold read
  split
  · exact absurd rfl hbom
  · simp only [hread, hend, List.isEmpty_nil, if_true]

end ContractAsm.Json
