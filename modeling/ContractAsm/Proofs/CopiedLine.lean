-- SUMMARY: Lines without a mnemonic are copied by every pass over them.
import ContractAsm.Proofs.Instruction

/-!
# Lines that are copied

A pass puts one character in the place of two or more, so it copies a line or makes it shorter, and
no later pass makes up for that. Hence a line is copied just if no pass finds its instruction in it.
What a pass finds is a whole word, so a name that only holds a mnemonic is never clipped.
-/

namespace ContractAsm

open Text

namespace Text

variable {α : Type}

/-- A word that stands in a text by itself: it goes on neither in front nor behind. -/
def StandsIn (w t : Text) : Prop :=
  IsWord w ∧ ∃ u v, t = u ++ (w ++ v) ∧ u.getLast?.any isWordChar = false
    ∧ v.head?.any isWordChar = false

/-- The words of a text are those that stand in it. -/
theorem mem_words_iff_standsIn {w t : Text} : w ∈ words t ↔ StandsIn w t := by
  constructor
  · intro hw
    refine ⟨(mem_words hw).1, ?_⟩
    induction t using break_induction with
    | row x hx =>
      obtain ⟨rfl, -⟩ := eq_of_mem_words_row hx hw
      exact ⟨[], [], by simp, rfl, rfl⟩
    | step x c y hx hc ih =>
      rw [words_append_break hc, List.mem_append] at hw
      rcases hw with hw | hw
      · obtain ⟨rfl, -⟩ := eq_of_mem_words_row hx hw
        exact ⟨[], c :: y, rfl, rfl, by simpa using hc⟩
      · -- the break in front of `y` is where the last part may end
        obtain ⟨u, v, rfl, hu, hv⟩ := ih hw
        refine ⟨x ++ c :: u, v, by simp, ?_, hv⟩
        cases hlast : u.getLast? with
        | none => simp [List.getLast?_append, List.getLast?_cons, hlast, hc]
        | some d =>
          rw [hlast] at hu
          simpa [List.getLast?_append, List.getLast?_cons, hlast] using hu
  · rintro ⟨hw, u, v, rfl, hu, hv⟩
    exact mem_words_between hw hu hv

instance (w t : Text) : Decidable (StandsIn w t) :=
  decidable_of_iff (w ∈ words t) mem_words_iff_standsIn

/-! ## The length of a scan -/

theorem length_scanFrom_le (rule : Recogniser α) (skip start : Nat) (before : Option Char)
    (t : Text) : (scanFrom rule skip start before t).length ≤ t.length := by
  induction t generalizing skip start before with
  | nil => exact Nat.le_refl 0
  | cons c cs ih =>
    cases skip with
    | succ k => exact (ih k (start + 1) (some c)).trans (Nat.le_succ _)
    | zero =>
      simp only [scanFrom]
      split
      · exact Nat.succ_le_succ (ih _ _ _)
      · exact Nat.succ_le_succ (ih _ _ _)

/-- A text without a match at any place, or the first place with one. -/
theorem silent_or_found (rule : Recogniser α) (before : Option Char) (t : Text) :
    Silent rule before t []
      ∨ ∃ x y a n, t = x ++ y ∧ Silent rule before x y
        ∧ rule (behind before x) y = some (a, n) := by
  induction t generalizing before with
  | nil => exact .inl .nil
  | cons c cs ih =>
    cases hrule : rule before (c :: cs) with
    | some found => exact .inr ⟨[], c :: cs, found.1, found.2, rfl, .nil, hrule⟩
    | none =>
      rcases ih (some c) with hsilent | ⟨x, y, a, n, rfl, hsilent, hfound⟩
      · exact .inl (.cons (by simpa using hrule) hsilent)
      · exact .inr ⟨c :: x, y, a, n, rfl, .cons hrule hsilent, by simpa using hfound⟩

end Text

namespace Instruction

variable {i j : Instruction} {line : Text}

/-! ## One pass -/

theorem length_replaceFrom_le (i : Instruction) (before : Option Char) (t : Text) :
    (replaceFrom i.recognise (fun _ => [i.opcode]) before t).length ≤ t.length := by
  have hone : ∀ p : Piece Unit, (p.replace fun _ => [i.opcode]).length = 1 := by
    intro p
    cases p with
    | char c => rfl
    | found start a => rfl
  have hlength := length_scanFrom_le i.recognise 0 0 before t
  simpa [replaceFrom, List.length_flatMap, hone] using hlength

theorem Occurs.split {before : Option Char} {t : Text} {n : Nat} (h : i.Occurs before t n) :
    ∃ x y, t = x ++ y ∧ x.length = n ∧ i.mnemonic.length ≤ n := by
  cases h with
  | @bare _ rest _ _ _ => exact ⟨i.mnemonic, rest, rfl, rfl, Nat.le_refl _⟩
  | @applied _ c rest _ _ _ =>
    exact ⟨i.mnemonic ++ [' '], c :: rest, by simp, by simp, Nat.le_succ _⟩
  | @alone rest _ _ => exact ⟨i.mnemonic, rest, rfl, rfl, Nat.le_refl _⟩

/-- A pass copies a line in which its instruction does not occur, and makes any other shorter. -/
theorem silent_or_length_encodeOne_lt (hi : i.Regular) (line : Text) :
    Silent i.recognise none line [] ∨ (i.encodeOne line).length < line.length := by
  rcases silent_or_found i.recognise none line with hsilent | ⟨x, y, a, n, rfl, hsilent, hfound⟩
  · exact .inl hsilent
  · right
    obtain ⟨m, rest, rfl, rfl, hmnemonic⟩ := (occurs_of_recognise hfound).split
    have hlong := hi.long
    have hm : m ≠ [] := by
      rintro rfl
      rw [List.length_nil] at hmnemonic
      omega
    have hrest := length_replaceFrom_le i (behind (behind none x) m) rest
    rw [encodeOne, replaceAll_eq_replaceFrom, replaceFrom_silent hsilent,
      replaceFrom_found hm hfound]
    simp only [List.length_append, List.length_singleton]
    omega

theorem encodeOne_eq_self_iff (hi : i.Regular) :
    i.encodeOne line = line ↔ Silent i.recognise none line [] := by
  constructor
  · intro hcopied
    rcases silent_or_length_encodeOne_lt hi line with hsilent | hlt
    · exact hsilent
    · rw [hcopied] at hlt
      exact absurd hlt (Nat.lt_irrefl _)
  · exact replaceFrom_eq_self

theorem length_encodeOne_le (hi : i.Regular) (line : Text) :
    (i.encodeOne line).length ≤ line.length := by
  rcases silent_or_length_encodeOne_lt hi line with hsilent | hlt
  · rw [(encodeOne_eq_self_iff hi).2 hsilent]
  · exact hlt.le

/-- There is no place in the line at which the instruction occurs. -/
theorem silent_recognise_iff (hi : i.Regular) : Silent i.recognise none line []
    ↔ ∀ u v n, line = u ++ v → ¬i.Occurs u.getLast? v n := by
  have hfront : ∀ u : Text, behind none u = u.getLast? := fun u => Option.or_none
  constructor
  · rintro hsilent u v n rfl hoccurs
    have hv : v ≠ [] := by
      rintro rfl
      obtain ⟨rest, hrest, -⟩ := hoccurs.word
      exact hi.isWord.1 (List.append_eq_nil_iff.1 hrest.symm).1
    have hnone := hsilent u v rfl hv
    rw [hfront, List.append_nil, hoccurs.recognise_eq] at hnone
    cases hnone
  · intro hnowhere u v huv _
    rw [hfront, List.append_nil]
    cases hrec : i.recognise u.getLast? v with
    | none => rfl
    | some found => exact absurd (occurs_of_recognise hrec) (hnowhere u v found.2 huv)

/-! ## All passes -/

theorem length_encodeEach_le {js : List Instruction} (hjs : ∀ j ∈ js, j ∈ table) (line : Text) :
    (encodeEach js line).length ≤ line.length := by
  induction js generalizing line with
  | nil => exact Nat.le_refl _
  | cons j js ih =>
    exact (ih (fun k hk => hjs k (List.mem_cons_of_mem j hk)) (j.encodeOne line)).trans
      (length_encodeOne_le (regular_of_mem (hjs j (List.mem_cons_self ..))) line)

/-- Passes copy a line just if each of them does: what one has taken away is not put back. -/
theorem encodeEach_eq_self_iff {js : List Instruction} (hjs : ∀ j ∈ js, j ∈ table) :
    encodeEach js line = line ↔ ∀ j ∈ js, j.encodeOne line = line := by
  refine ⟨?_, encodeEach_eq_self⟩
  induction js with
  | nil => simp
  | cons j js ih =>
    intro hcopied
    have hjs' : ∀ k ∈ js, k ∈ table := fun k hk => hjs k (List.mem_cons_of_mem j hk)
    have hregular := regular_of_mem (hjs j (List.mem_cons_self ..))
    change encodeEach js (j.encodeOne line) = line at hcopied
    have hone : j.encodeOne line = line := by
      rcases silent_or_length_encodeOne_lt hregular line with hsilent | hlt
      · exact (encodeOne_eq_self_iff hregular).2 hsilent
      · have hle := length_encodeEach_le hjs' (j.encodeOne line)
        rw [hcopied] at hle
        omega
    rw [hone] at hcopied
    exact List.forall_mem_cons.2 ⟨hone, ih hjs' hcopied⟩

/-- A line in which no mnemonic stands as a word is copied, whatever names hold a mnemonic and
whatever other characters there are. In general a line is copied just if no instruction occurs in
it: a mnemonic that stands as a word, with what that instruction needs behind it. -/
theorem encode_eq_self_of_standsIn (line : Text) :
    ((∀ i ∈ table, ¬StandsIn i.mnemonic line) → encode line = line)
    ∧ (encode line = line ↔ ∀ i ∈ table, ∀ u v n, line = u ++ v → ¬i.Occurs u.getLast? v n) := by
  constructor
  · intro hfree
    apply encodeEach_eq_self
    intro i hi
    apply encodeOne_eq_self (regular_of_mem hi)
    exact fun hmem => hfree i hi (mem_words_iff_standsIn.1 hmem)
  · have hpasses : encode line = line ↔ ∀ i ∈ table, i.encodeOne line = line :=
      encodeEach_eq_self_iff fun _ hi => hi
    rw [hpasses]
    refine forall₂_congr fun i hi => ?_
    rw [encodeOne_eq_self_iff (regular_of_mem hi), silent_recognise_iff (regular_of_mem hi)]

/-- Names that hold a mnemonic at the start, at the end and in the middle. -/
theorem encode_eq_self_of_standsIn_names :
    (∀ i ∈ table, ¬StandsIn i.mnemonic "éMALLOC1 XALLOC, @_HASH160 COPYIMMS  LOGSé2TIME_".toList)
      ∧ encode "éMALLOC1 XALLOC, @_HASH160 COPYIMMS  LOGSé2TIME_".toList
        = "éMALLOC1 XALLOC, @_HASH160 COPYIMMS  LOGSé2TIME_".toList := by
  have hfree : ∀ i ∈ table,
      ¬StandsIn i.mnemonic "éMALLOC1 XALLOC, @_HASH160 COPYIMMS  LOGSé2TIME_".toList := by
    decide +kernel
  exact ⟨hfree, (encode_eq_self_of_standsIn _).1 hfree⟩

end Instruction

end ContractAsm
