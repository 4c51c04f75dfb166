-- SUMMARY: Laws of scans: a silent stretch is copied, and a match is jumped over.
import ContractAsm.Text.Scan
import Mathlib.Data.List.Basic
import Mathlib.Data.List.TakeWhile

/-!
# Laws of scans

A scan is described by two laws: it copies a stretch in which no match starts, and it jumps over a
match. Everything about replacing follows from these, so later proofs never open the scan itself.
-/

namespace ContractAsm.Text

variable {α : Type} {rule : Recogniser α} {f : α → Text} {before : Option Char} {n : Nat} {a : α}

/-- The character in front of a place: the last one of what was read up to it, or else the one in
front of that. -/
def behind (before : Option Char) (read : Text) : Option Char :=
  read.getLast?.or before

@[simp] theorem behind_nil : behind before [] = before := rfl

@[simp] theorem behind_cons (c : Char) (cs : Text) :
    behind before (c :: cs) = behind (some c) cs := by
  simp only [behind, List.getLast?_cons]
  cases cs.getLast? with
  | none => rfl
  | some d => rfl

@[simp] theorem behind_append (s t : Text) :
    behind before (s ++ t) = behind (behind before s) t := by
  induction s generalizing before with
  | nil => rfl
  | cons c s ih => simp [ih]

/-- A run ends in front of the first character that does not belong to it. -/
theorem takeWhile_append_stop {p : Char → Bool} {x y : Text} (hx : ∀ c ∈ x, p c = true)
    (hy : y.head?.any p = false) : (x ++ y).takeWhile p = x := by
  have hstop : y.takeWhile p = [] := by
    cases y with
    | nil => rfl
    | cons c y =>
      have hc : p c = false := by simpa using hy
      simp [hc]
  rw [List.takeWhile_append_of_pos hx, hstop, List.append_nil]

/-- A text starts with a longest stretch of characters of one kind. -/
theorem exists_stretch (p : Char → Bool) (t : Text) :
    ∃ x y, t = x ++ y ∧ (∀ c ∈ x, p c = true) ∧ y.head?.any p = false := by
  refine ⟨t.takeWhile p, t.dropWhile p, List.takeWhile_append_dropWhile.symm,
    fun c hc => List.mem_takeWhile_imp hc, ?_⟩
  have hstop := List.head?_dropWhile_not p t
  cases hhead : (t.dropWhile p).head? with
  | none => rfl
  | some c =>
    rw [hhead] at hstop
    simpa using hstop

/-- No match of a recogniser starts in a stretch of text, with the rest of the text behind it. -/
def Silent (rule : Recogniser α) (before : Option Char) (stretch rest : Text) : Prop :=
  ∀ u v, stretch = u ++ v → v ≠ [] → rule (behind before u) (v ++ rest) = none

theorem Silent.nil {rest : Text} : Silent rule before [] rest := by
  intro u v huv hv
  exact absurd (List.append_eq_nil_iff.1 huv.symm).2 hv

/-- A stretch is silent if no match starts at its first character nor later. -/
theorem Silent.cons {c : Char} {cs rest : Text} (hc : rule before (c :: (cs ++ rest)) = none)
    (hcs : Silent rule (some c) cs rest) : Silent rule before (c :: cs) rest := by
  intro u v huv hv
  cases u with
  | nil =>
    rw [List.nil_append] at huv
    subst huv
    simpa using hc
  | cons d u =>
    obtain ⟨rfl, rfl⟩ := List.cons.inj huv
    simpa using hcs u v rfl hv

theorem Silent.head {c : Char} {cs rest : Text} (h : Silent rule before (c :: cs) rest) :
    rule before (c :: (cs ++ rest)) = none := by
  simpa using h [] (c :: cs) rfl (List.cons_ne_nil c cs)

theorem Silent.tail {c : Char} {cs rest : Text} (h : Silent rule before (c :: cs) rest) :
    Silent rule (some c) cs rest := by
  intro u v huv hv
  have hnone := h (c :: u) v (by rw [huv, List.cons_append]) hv
  simpa using hnone

/-- A recogniser that needs a certain first character is silent where that character is missing. -/
theorem Silent.of_not_mem {q : Char} {stretch rest : Text}
    (hrule : ∀ b c cs, c ≠ q → rule b (c :: cs) = none) (hq : q ∉ stretch) :
    Silent rule before stretch rest := by
  induction stretch generalizing before with
  | nil => exact .nil
  | cons c cs ih =>
    obtain ⟨hc, hcs⟩ := List.ne_and_not_mem_of_not_mem_cons hq
    exact .cons (hrule before c (cs ++ rest) hc.symm) (ih hcs)

/-! ## The two laws -/

/-- What a match covers is skipped. -/
theorem scanFrom_skip (x y : Text) :
    scanFrom rule x.length n before (x ++ y)
      = scanFrom rule 0 (n + x.length) (behind before x) y := by
  induction x generalizing before n with
  | nil => rfl
  | cons c x ih =>
    have hn : n + 1 + x.length = n + (x.length + 1) := by omega
    simp only [List.length_cons, List.cons_append, scanFrom, ih, behind_cons, hn]

/-- A stretch without a match is copied. -/
theorem scanFrom_silent {x y : Text} (h : Silent rule before x y) :
    scanFrom rule 0 n before (x ++ y)
      = x.map .char ++ scanFrom rule 0 (n + x.length) (behind before x) y := by
  -- on the stretch; the rest stays in view of every place in it
  induction x generalizing before n with
  | nil => rfl
  | cons c x ih =>
    have hn : n + 1 + x.length = n + (x.length + 1) := by omega
    simp only [List.cons_append, scanFrom, h.head, ih h.tail, List.map_cons, behind_cons,
      List.length_cons, hn]

/-- A match is recorded, and the scan goes on behind it. -/
theorem scanFrom_found {x y : Text} (hx : x ≠ []) (h : rule before (x ++ y) = some (a, x.length)) :
    scanFrom rule 0 n before (x ++ y)
      = .found n a :: scanFrom rule 0 (n + x.length) (behind before x) y := by
  cases x with
  | nil => exact absurd rfl hx
  | cons c x =>
    have hn : n + 1 + x.length = n + (x.length + 1) := by omega
    -- the first character is counted as read, so one less is to be skipped
    rw [List.cons_append] at h ⊢
    simp only [scanFrom, h, List.length_cons, Nat.add_sub_cancel, scanFrom_skip, behind_cons, hn]

/-- A text without matches is scanned to its characters. -/
theorem scan_silent {t : Text} (h : Silent rule none t []) : scan rule t = t.map .char := by
  have hscan := scanFrom_silent (n := 0) h
  rw [List.append_nil] at hscan
  rw [scan, hscan, scanFrom, List.append_nil]

/-- Where nothing is found, every character is copied. -/
theorem scanFrom_of_not_found {t : Text}
    (h : ∀ start a, .found start a ∉ scanFrom rule 0 n before t) :
    scanFrom rule 0 n before t = t.map .char := by
  induction t generalizing n before with
  | nil => rfl
  | cons c cs ih =>
    cases hrule : rule before (c :: cs) with
    | some found =>
      refine absurd ?_ (h n found.1)
      simp [scanFrom, hrule]
    | none =>
      simp only [scanFrom, hrule, List.mem_cons, reduceCtorEq, false_or] at h ⊢
      rw [ih h, List.map_cons]

theorem scanFrom_eq_nil {t : Text} (h : scanFrom rule 0 n before t = []) : t = [] := by
  cases t with
  | nil => rfl
  | cons c cs =>
    simp only [scanFrom] at h
    split at h
    · cases h
    · cases h

/-- A scan that gives one character has seen nothing else. -/
theorem scan_eq_char {t : Text} {c : Char} (h : scan rule t = [.char c]) : t = [c] := by
  cases t with
  | nil => cases h
  | cons d ds =>
    simp only [scan, scanFrom] at h
    split at h
    · cases h
    · obtain ⟨hd, hrest⟩ := List.cons.inj h
      cases hd
      rw [scanFrom_eq_nil hrest]

/-! ## Replacing

The text is replaced from a place on, with the character in front of that place in view. Positions
of matches do not count. -/

/-- Replaces every match behind a place of a text. -/
def replaceFrom (rule : Recogniser α) (f : α → Text) (before : Option Char) (t : Text) : Text :=
  (scanFrom rule 0 0 before t).flatMap (Piece.replace f)

theorem replaceAll_eq_replaceFrom (t : Text) : replaceAll rule f t = replaceFrom rule f none t :=
  rfl

@[simp] theorem replaceFrom_nil : replaceFrom rule f before [] = [] := rfl

/-- What comes of a scan does not depend on where the counting starts. -/
theorem flatMap_scanFrom (skip start : Nat) (t : Text) :
    (scanFrom rule skip start before t).flatMap (Piece.replace f)
      = (scanFrom rule skip 0 before t).flatMap (Piece.replace f) := by
  induction t generalizing skip start before with
  | nil => rfl
  | cons c cs ih =>
    cases skip with
    | succ k =>
      simp only [scanFrom]
      rw [ih k (start + 1), ih k (0 + 1)]
    | zero =>
      simp only [scanFrom]
      cases rule before (c :: cs) with
      | none =>
        simp only [List.flatMap_cons, Piece.replace]
        rw [ih 0 (start + 1), ih 0 (0 + 1)]
      | some found =>
        simp only [List.flatMap_cons, Piece.replace]
        rw [ih (found.2 - 1) (start + 1), ih (found.2 - 1) (0 + 1)]

theorem flatMap_replace_char (t : Text) :
    (t.map Piece.char).flatMap (Piece.replace f) = t := by
  induction t with
  | nil => rfl
  | cons c cs ih => simp only [List.map_cons, List.flatMap_cons, Piece.replace, ih,
      List.singleton_append]

/-- A silent stretch is copied. -/
theorem replaceFrom_silent {x y : Text} (h : Silent rule before x y) :
    replaceFrom rule f before (x ++ y) = x ++ replaceFrom rule f (behind before x) y := by
  rw [replaceFrom, scanFrom_silent h, List.flatMap_append, flatMap_replace_char, flatMap_scanFrom,
    replaceFrom]

theorem replaceFrom_cons {c : Char} {cs : Text} (h : rule before (c :: cs) = none) :
    replaceFrom rule f before (c :: cs) = c :: replaceFrom rule f (some c) cs :=
  replaceFrom_silent (x := [c]) (.cons h .nil)

/-- A match is replaced, and the scan goes on behind it. -/
theorem replaceFrom_found {x y : Text} (hx : x ≠ [])
    (h : rule before (x ++ y) = some (a, x.length)) :
    replaceFrom rule f before (x ++ y) = f a ++ replaceFrom rule f (behind before x) y := by
  rw [replaceFrom, scanFrom_found hx h, List.flatMap_cons, flatMap_scanFrom, replaceFrom,
    Piece.replace]

/-- Where nothing matches, nothing is replaced. -/
theorem replaceFrom_eq_self {t : Text} (h : Silent rule before t []) :
    replaceFrom rule f before t = t := by
  have hall := replaceFrom_silent (f := f) h
  rwa [List.append_nil, replaceFrom_nil, List.append_nil] at hall

end ContractAsm.Text
