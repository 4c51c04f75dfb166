-- SUMMARY: Paths, places and files, and what writing them changes.
import Mathlib.Data.List.Flatten
import ContractAsm.Proofs.Rewording
import ContractAsm.Tool.FileSystem
import ContractAsm.Tool.Path

/-!
# Paths and files

A path leads to a place through directories. The normal form of a path leads to the same place, and
writing files leaves all places where they are, for a file never stands in for a directory. So files
at different places are written one after the other, each of them as if it were alone.
-/

namespace ContractAsm.Tool

open Text

/-! ## Normal forms -/

namespace Path

/-- Leaving out parts leaves out characters. -/
theorem intercalate_sublist {xs ys : List Text} (sep : Text) (h : xs.Sublist ys) :
    (sep.intercalate xs).Sublist (sep.intercalate ys) := by
  have hcons : ∀ (y : Text) (zs : List Text),
      (sep.intercalate zs).Sublist (sep.intercalate (y :: zs)) := by
    intro y zs
    cases zs with
    | nil => simp
    | cons z zs =>
      rw [List.intercalate_cons_cons]
      exact List.sublist_append_right ..
  induction h with
  | slnil => exact .refl _
  | @cons xs ys y _ ih => exact ih.trans (hcons y ys)
  | @cons_cons xs ys y h ih =>
    cases xs with
    | nil =>
      cases ys with
      | nil => exact .refl _
      | cons y' ys =>
        rw [List.intercalate_cons_cons, List.intercalate_singleton, List.append_assoc]
        exact List.sublist_append_left ..
    | cons x' xs =>
      cases ys with
      | nil => cases h
      | cons y' ys =>
        rw [List.intercalate_cons_cons, List.intercalate_cons_cons]
        exact .append (.refl _) ih

/-- A leading slash adds no part. -/
theorem parts_slash (rest : Text) : (ofText ('/' :: rest)).parts = (ofText rest).parts := by
  simp [ofText, List.splitOn_cons_eq_if_modifyHead]

/-- No part contains a slash. -/
theorem slash_not_mem_part {t part : Text} (h : part ∈ (ofText t).parts) : '/' ∉ part :=
  (mem_splitOn (List.mem_filter.1 h).1).1

/-- No part is empty. -/
theorem ne_nil_of_mem_parts {t part : Text} (h : part ∈ (ofText t).parts) : part ≠ [] := by
  have hkept := (List.mem_filter.1 h).2
  rintro rfl
  simp at hkept

/-- The parts of a path, joined again, are some characters of it. -/
theorem intercalate_parts_sublist (t : Text) : (['/'].intercalate (ofText t).parts).Sublist t := by
  have hsublist := intercalate_sublist ['/'] (List.filter_sublist (l := t.splitOn '/')
    (p := fun part => !part.isEmpty && part != ['.']))
  rwa [List.intercalate_splitOn] at hsublist

/-- A path without a root has no root in its normal form, and one with a root keeps one slash of it,
or two if the path starts with two. -/
theorem root_cases (path : Text) : (path.head? ≠ some '/' ∧ (ofText path).root = [])
    ∨ (∃ rest, path = '/' :: rest ∧ (ofText path).root = ['/'])
    ∨ ∃ rest, path = '/' :: '/' :: rest ∧ (ofText path).root = ['/', '/'] := by
  cases path with
  | nil => exact .inl ⟨by simp, rfl⟩
  | cons c rest =>
    by_cases hc : c = '/'
    · subst hc
      refine .inr ?_
      change (∃ rest', _ ∧ rootOf ('/' :: rest) = _) ∨ ∃ rest', _ ∧ rootOf ('/' :: rest) = _
      unfold rootOf
      split
      · next h => simp at h
      · next h =>
        refine .inr ?_
        cases rest with
        | nil => simp at h
        | cons d rest =>
          by_cases hd : d = '/'
          · exact ⟨rest, by rw [hd], rfl⟩
          · simp [hd] at h
      · exact .inl ⟨rest, rfl, rfl⟩
    · refine .inl ⟨by simpa using hc, ?_⟩
      simp [ofText, rootOf, hc]

/-- A path is shown as its root and its parts, and as a dot if it has neither. -/
theorem toText_eq (p : Path) :
    (p.toText = p.root ++ ['/'].intercalate p.parts ∧ p.toText ≠ [])
      ∨ p.root = [] ∧ ['/'].intercalate p.parts = [] ∧ p.toText = ['.'] := by
  unfold toText
  split
  · next h =>
    obtain ⟨hroot, hparts⟩ := List.append_eq_nil_iff.1 h
    exact .inr ⟨hroot, hparts, rfl⟩
  · next h => exact .inl ⟨rfl, h⟩

theorem head?_intercalate_parts (t : Text) :
    (['/'].intercalate (ofText t).parts).head? ≠ some '/' := by
  cases hparts : (ofText t).parts with
  | nil => simp
  | cons part parts =>
    have hpart : part ∈ (ofText t).parts := hparts ▸ List.mem_cons_self ..
    obtain ⟨c, cs, rfl⟩ := List.exists_cons_of_ne_nil (ne_nil_of_mem_parts hpart)
    have hc : c ≠ '/' := fun h => slash_not_mem_part hpart (by simp [h])
    cases parts with
    | nil => simpa using hc
    | cons part' parts => simpa [List.intercalate_cons_cons] using hc

/-- The normal form only leaves characters out, apart from the point for an empty path. -/
theorem root_append_sublist (path : Text) :
    ((ofText path).root ++ ['/'].intercalate (ofText path).parts).Sublist path := by
  rcases root_cases path with ⟨-, hroot⟩ | ⟨rest, rfl, hroot⟩ | ⟨rest, rfl, hroot⟩
  · rw [hroot, List.nil_append]
    exact intercalate_parts_sublist path
  · rw [hroot, parts_slash]
    exact (intercalate_parts_sublist rest).cons_cons '/'
  · rw [hroot, parts_slash, parts_slash]
    exact ((intercalate_parts_sublist rest).cons_cons '/').cons_cons '/'

/-- A null character stays in the normal form. -/
theorem null_mem_toText {path : Text} (h : '\x00' ∈ path) : '\x00' ∈ (ofText path).toText := by
  have hpath : ['/'].intercalate (path.splitOn '/') = path := List.intercalate_splitOn '/'
  rw [← hpath, mem_intercalate_iff (by decide)] at h
  obtain ⟨part, hpart, hnull⟩ := h
  have hkept : part ∈ (ofText path).parts := by
    refine List.mem_filter.2 ⟨hpart, ?_⟩
    have hne : part ≠ [] := List.ne_nil_of_mem hnull
    have hpoint : part ≠ ['.'] := by
      rintro rfl
      simp at hnull
    simpa [hne] using hpoint
  have hmem : '\x00' ∈ ['/'].intercalate (ofText path).parts :=
    (mem_intercalate_iff (by decide)).2 ⟨part, hkept, hnull⟩
  rcases toText_eq (ofText path) with ⟨htext, -⟩ | ⟨-, hparts, -⟩
  · rw [htext]
    exact List.mem_append_right _ hmem
  · rw [hparts] at hmem
    cases hmem

end Path

/-! ## Following paths -/

namespace FileSystem

variable {fs : FileSystem} {place target : Place} {path : Text}

/-- The places that every machine has are directories. -/
theorem node?_of_isGiven (h : place.isGiven = true) : fs.node? place = some .directory := by
  rw [node?, if_pos h]

theorem isGiven_eq_false (h : fs.node? place ≠ some .directory) : place.isGiven = false :=
  Bool.eq_false_iff.2 fun hgiven => h (node?_of_isGiven hgiven)

/-- Where one part of a path leads from a directory. -/
def next (place : Place) (part : Text) : Except FileFault Place :=
  if part.isEmpty || part == ['.'] then .ok place
  else if part == Place.stepUp then .ok place.parent
  else if nameLimit < (Utf8.encode part).length then .error .nameTooLong
  else .ok (place ++ [part])

/-- A path is followed from directory to directory. -/
theorem follow_cons_eq_ok_iff {part : Text} {rest : List Text} :
    fs.follow place (part :: rest) = .ok target ↔ fs.node? place = some .directory
      ∧ ∃ there, next place part = .ok there ∧ fs.follow there rest = .ok target := by
  rw [follow]
  cases fs.node? place with
  | none => simp
  | some node =>
    cases node with
    | file contents => simp
    | directory =>
      simp only [true_and, next]
      split
      · simp
      · split
        · simp
        · split
          · simp
          · simp

/-- A slash in front stays in place. -/
theorem follow_slash (hplace : fs.node? place = some .directory) (t : Text) :
    fs.follow place (('/' :: t).splitOn '/') = fs.follow place (t.splitOn '/') := by
  rw [List.splitOn_cons_eq_if_modifyHead, if_pos (by simp), follow, hplace]
  rfl

/-- Where a path starts: at the root or at the working directory. -/
def start (path : Text) : Place :=
  if path.head? = some '/' then Place.root else []

/-- A path starts at a directory. -/
theorem node?_start (fs : FileSystem) (path : Text) :
    fs.node? (start path) = some .directory := by
  unfold start
  split
  · exact node?_of_isGiven (by decide)
  · exact node?_of_isGiven (by decide)

/-- A path has a place just if it is short enough, has no null character and can be followed. -/
theorem place_eq_ok_iff : fs.place path = .ok target ↔ '\x00' ∉ path
    ∧ (Utf8.encode path).length ≤ pathLimit ∧ path ≠ []
    ∧ fs.follow (start path) (path.splitOn '/') = .ok target := by
  unfold FileSystem.place
  by_cases hnull : '\x00' ∈ path
  · simp [hnull]
  · by_cases hlong : pathLimit < (Utf8.encode path).length
    · simp [hnull, hlong]
    · rw [if_neg hnull, if_neg hlong]
      have hlength : (Utf8.encode path).length ≤ pathLimit := Nat.le_of_not_lt hlong
      split
      · simp
      · next rest =>
        rw [follow_slash (node?_start fs _)]
        simp [hnull, hlength, start]
      · next hnil hslash =>
        have hhead : path.head? ≠ some '/' := by
          intro h
          obtain ⟨rest, hrest⟩ := List.head?_eq_some_iff.1 h
          exact hslash rest hrest
        have hne : path ≠ [] := fun h => hnil h
        simp [hnull, hlength, hne, start, hhead]

/-- Parts that stay in place can be left out. -/
theorem follow_parts {t : Text} (h : fs.follow place (t.splitOn '/') = .ok target) :
    fs.follow place (Path.ofText t).parts = .ok target := by
  unfold Path.ofText
  simp only
  generalize t.splitOn '/' = parts at h ⊢
  induction parts generalizing place with
  | nil => exact h
  | cons part parts ih =>
    obtain ⟨hnode, there, hnext, hrest⟩ := follow_cons_eq_ok_iff.1 h
    by_cases hkept : (!part.isEmpty && part != ['.']) = true
    · rw [List.filter_cons, if_pos hkept, follow_cons_eq_ok_iff]
      exact ⟨hnode, there, hnext, ih hrest⟩
    · have hstays : (part.isEmpty || part == ['.']) = true := by
        rw [← Bool.not_eq_false]
        simpa using hkept
      rw [next, if_pos hstays] at hnext
      cases hnext
      rw [List.filter_cons, if_neg hkept]
      exact ih hrest

/-- Following a joined path is following its parts. -/
theorem follow_intercalate (hplace : fs.node? place = some .directory) {parts : List Text}
    (hparts : ∀ part ∈ parts, '/' ∉ part) :
    fs.follow place ((['/'].intercalate parts).splitOn '/') = fs.follow place parts := by
  by_cases hnil : parts = []
  · rw [hnil, List.intercalate_nil, List.splitOn_nil]
    exact follow_cons_eq_ok_iff.2 ⟨hplace, place, rfl, rfl⟩
  · rw [List.splitOn_intercalate '/' hparts hnil]

/-- The normal form of a path leads to the same place. -/
theorem place_toText (h : fs.place path = .ok target) :
    fs.place (Path.ofText path).toText = .ok target := by
  obtain ⟨hnull, hlength, -, hfollow⟩ := place_eq_ok_iff.1 h
  have hplace := node?_start fs path
  have hparts : fs.follow (start path) ((['/'].intercalate (Path.ofText path).parts).splitOn '/')
      = .ok target := by
    rw [follow_intercalate hplace fun _ => Path.slash_not_mem_part]
    exact follow_parts hfollow
  rcases Path.toText_eq (Path.ofText path) with ⟨htext, hne⟩ | ⟨hempty, hnil, htext⟩
  · have hsublist := Path.root_append_sublist path
    rw [← htext] at hsublist
    refine place_eq_ok_iff.2 ⟨fun hmem => hnull (hsublist.subset hmem),
      (hsublist.flatMap String.utf8EncodeChar).length_le.trans hlength, hne, ?_⟩
    rcases Path.root_cases path with ⟨hhead, hroot⟩ | ⟨rest, rfl, hroot⟩ | ⟨rest, rfl, hroot⟩
    · have hstart : start (Path.ofText path).toText = start path := by
        rw [htext, hroot, List.nil_append, start, start, if_neg hhead,
          if_neg (Path.head?_intercalate_parts path)]
      rwa [hstart, htext, hroot, List.nil_append]
    · rw [htext, hroot, List.singleton_append]
      exact (follow_slash hplace _).trans hparts
    · rw [htext, hroot, List.cons_append, List.singleton_append]
      exact (follow_slash hplace _).trans ((follow_slash hplace _).trans hparts)
  · -- nothing is left of the path, so it leads to the working directory
    have hstart : start path = [] := by
      rcases Path.root_cases path with ⟨hhead, -⟩ | ⟨rest, -, hroot⟩ | ⟨rest, -, hroot⟩
      · rw [start, if_neg hhead]
      · cases hempty.symm.trans hroot
      · cases hempty.symm.trans hroot
    rw [hnil, hstart, List.splitOn_nil] at hparts
    rw [hstart] at hplace
    obtain ⟨-, _, hnext, htarget⟩ := follow_cons_eq_ok_iff.1 hparts
    cases hnext
    rw [htext]
    refine place_eq_ok_iff.2 ⟨by decide, by decide, by decide, ?_⟩
    exact follow_cons_eq_ok_iff.2 ⟨hplace, [], rfl, htarget⟩

/-! ## Writing files -/

variable {contents : Bytes} {q : Place}

theorem read_of_node? (hplace : fs.place path = .ok place)
    (hnode : fs.node? place = some (.file contents)) : fs.read path = .ok contents := by
  rw [read, hplace]
  simp only [bind, Except.bind, hnode]
  rfl

/-- A node is seen at a path just if the path leads to it. -/
theorem look_eq_some_iff {node : Node} : fs.look path = some node
    ↔ ∃ place, fs.place path = .ok place ∧ fs.node? place = some node := by
  unfold look
  cases fs.place path with
  | ok place => simp
  | error f => simp

/-- A file that is found by looking at a path is read through the normal form of the path. -/
theorem read_toText (h : fs.look path = some (.file contents)) :
    fs.read (Path.ofText path).toText = .ok contents := by
  obtain ⟨place, hplace, hnode⟩ := look_eq_some_iff.1 h
  exact read_of_node? (place_toText hplace) hnode

theorem null_not_mem_of_look {node : Node} (h : fs.look path = some node) : '\x00' ∉ path := by
  obtain ⟨place, hplace, -⟩ := look_eq_some_iff.1 h
  exact (place_eq_ok_iff.1 hplace).1

/-- A file is written where the path leads, unless there is a directory. -/
theorem write_eq (hplace : fs.place path = .ok place) (hnode : fs.node? place ≠ some .directory) :
    fs.write path contents = .ok (fs.put place (.file contents)) := by
  rw [write, hplace]
  -- the match takes its last branch, since no directory is there
  simp only [bind, Except.bind]
  rfl

/-- A file that is put somewhere leaves every directory where it is. -/
theorem node?_put_directory (hq : fs.node? q ≠ some .directory)
    (h : fs.node? place = some .directory) :
    (fs.put q (.file contents)).node? place = some .directory := by
  have hne : place ≠ q := by
    rintro rfl
    exact hq h
  rw [node?_put_of_ne _ _ hne, h]

/-- A file put elsewhere blocks no path that could be followed. -/
theorem follow_put (hq : fs.node? q ≠ some .directory) {parts : List Text}
    (h : fs.follow place parts = .ok target) :
    (fs.put q (.file contents)).follow place parts = .ok target := by
  induction parts generalizing place with
  | nil => exact h
  | cons part parts ih =>
    obtain ⟨hnode, there, hnext, hrest⟩ := follow_cons_eq_ok_iff.1 h
    exact follow_cons_eq_ok_iff.2 ⟨node?_put_directory hq hnode, there, hnext, ih hrest⟩

/-- Paths lead where they led before. -/
theorem place_put (hq : fs.node? q ≠ some .directory) (h : fs.place path = .ok target) :
    (fs.put q (.file contents)).place path = .ok target := by
  obtain ⟨hnull, hlength, hne, hfollow⟩ := place_eq_ok_iff.1 h
  exact place_eq_ok_iff.2 ⟨hnull, hlength, hne, follow_put hq hfollow⟩

/-- A file that is put somewhere is found there. -/
theorem look_put (hplace : fs.place path = .ok place) (hnode : fs.node? place ≠ some .directory) :
    (fs.put place (.file contents)).look path = some (.file contents) :=
  look_eq_some_iff.2
    ⟨place, place_put hnode hplace, node?_put_self _ _ (isGiven_eq_false hnode)⟩

/-- A path at which a file can be written. -/
def Writable (fs : FileSystem) (path : Path) : Prop :=
  ∃ place, fs.place path.toText = .ok place ∧ fs.node? place ≠ some .directory

/-- A path is writable when its normal form is, so looking at it finds no directory. -/
theorem Writable.look_ne (h : fs.Writable (Path.ofText path)) :
    '\x00' ∉ path ∧ fs.look path ≠ some .directory := by
  obtain ⟨place, hplace, hnode⟩ := h
  refine ⟨fun hnull => (place_eq_ok_iff.1 hplace).1 (Path.null_mem_toText hnull), fun hlook => ?_⟩
  obtain ⟨place', hplace', hdirectory⟩ := look_eq_some_iff.1 hlook
  rw [place_toText hplace'] at hplace
  cases hplace
  exact hnode hdirectory

/-- Two paths that do not lead to the same place. -/
def Apart (fs : FileSystem) (p p' : Path) : Prop :=
  fs.place p.toText ≠ fs.place p'.toText

instance (fs : FileSystem) (path : Path) : Decidable (fs.Writable path) :=
  match h : fs.place path.toText with
  | .ok place =>
    decidable_of_iff (fs.node? place ≠ some .directory)
      ⟨fun hnode => ⟨place, h, hnode⟩, fun ⟨_, hplace, hnode⟩ =>
        Except.ok.inj (h.symm.trans hplace) ▸ hnode⟩
  | .error _ => isFalse fun ⟨_, hplace, _⟩ => nomatch h.symm.trans hplace

instance (fs : FileSystem) (p p' : Path) : Decidable (fs.Apart p p') :=
  inferInstanceAs (Decidable (_ ≠ _))

/-- A file put elsewhere leaves writable paths writable. -/
theorem Writable.put (hq : fs.node? q ≠ some .directory) {p : Path} (h : fs.Writable p) :
    (fs.put q (.file contents)).Writable p := by
  obtain ⟨place, hplace, hnode⟩ := h
  refine ⟨place, place_put hq hplace, ?_⟩
  by_cases hne : place = q
  · rw [hne, node?_put_self _ _ (isGiven_eq_false hq)]
    simp
  · rwa [node?_put_of_ne _ _ hne]

/-- Writes files one after the other. -/
def writeAll (fs : FileSystem) (files : List (Path × Bytes)) : Except FileFault FileSystem :=
  files.foldlM (fun fs file => fs.write file.1.toText file.2) fs

/-- Files are written one after the other. -/
theorem writeAll_append_eq_ok_iff {fs' : FileSystem} {files files' : List (Path × Bytes)} :
    fs.writeAll (files ++ files') = .ok fs'
      ↔ ∃ mid, fs.writeAll files = .ok mid ∧ mid.writeAll files' = .ok fs' := by
  rw [writeAll, List.foldlM_append]
  change fs.writeAll files >>= (fun mid => mid.writeAll files') = .ok fs' ↔ _
  cases fs.writeAll files with
  | error f => simp [bind, Except.bind]
  | ok mid => simp [bind, Except.bind]

/-- Files at different places are written as they are, and nothing else changes. -/
theorem exists_writeAll {files : List (Path × Bytes)} (hwritable : ∀ f ∈ files, fs.Writable f.1)
    (hapart : files.Pairwise fun f g => fs.Apart f.1 g.1) :
    ∃ fs', fs.writeAll files = .ok fs'
      ∧ (∀ path place, fs.place path = .ok place → fs'.place path = .ok place)
      ∧ (∀ f ∈ files, fs'.read f.1.toText = .ok f.2)
      ∧ ∀ place, (∀ f ∈ files, fs.place f.1.toText ≠ .ok place) →
        fs'.node? place = fs.node? place := by
  induction files generalizing fs with
  | nil => exact ⟨fs, rfl, fun _ _ h => h, by simp, fun _ _ => rfl⟩
  | cons f files ih =>
    obtain ⟨q, hplace, hq⟩ := hwritable f (List.mem_cons_self ..)
    obtain ⟨hfirst, hrest⟩ := List.pairwise_cons.1 hapart
    -- the first write leaves the other paths where they lead, which is elsewhere
    have hput : ∀ g ∈ files, ∃ place, fs.place g.1.toText = .ok place ∧ place ≠ q
        ∧ (fs.put q (.file f.2)).place g.1.toText = .ok place := by
      intro g hg
      obtain ⟨place, hg', -⟩ := hwritable g (List.mem_cons_of_mem f hg)
      refine ⟨place, hg', ?_, place_put hq hg'⟩
      rintro rfl
      exact hfirst g hg (hplace.trans hg'.symm)
    have hwritable' : ∀ g ∈ files, (fs.put q (.file f.2)).Writable g.1 :=
      fun g hg => (hwritable g (List.mem_cons_of_mem f hg)).put hq
    have hapart' : files.Pairwise fun g g' => (fs.put q (.file f.2)).Apart g.1 g'.1 := by
      refine hrest.imp_of_mem fun {g g'} hg hg' h => ?_
      obtain ⟨place, hbefore, -, hafter⟩ := hput g hg
      obtain ⟨place', hbefore', -, hafter'⟩ := hput g' hg'
      rwa [Apart, hafter, hafter', ← hbefore, ← hbefore']
    obtain ⟨fs', hwritten, hplaces, hread, hframe⟩ := ih hwritable' hapart'
    refine ⟨fs', ?_, fun path place h => hplaces path place (place_put hq h), ?_, ?_⟩
    · rw [writeAll, List.foldlM_cons, write_eq hplace hq]
      exact hwritten
    · intro g hg
      rcases List.mem_cons.1 hg with rfl | hg
      · -- and no later write comes back to it
        refine read_of_node? (hplaces _ _ (place_put hq hplace)) ?_
        rw [hframe q, node?_put_self _ _ (isGiven_eq_false hq)]
        intro g' hg' h
        obtain ⟨place, -, hne, hafter⟩ := hput g' hg'
        rw [hafter] at h
        exact hne (Except.ok.inj h)
      · exact hread g hg
    · intro place hother
      have hne : place ≠ q := by
        rintro rfl
        exact hother f (List.mem_cons_self ..) hplace
      rw [hframe place, node?_put_of_ne _ _ hne]
      intro g hg h
      obtain ⟨place', hbefore, -, hafter⟩ := hput g hg
      rw [hafter] at h
      cases h
      exact hother g (List.mem_cons_of_mem f hg) hbefore

end FileSystem

end ContractAsm.Tool
