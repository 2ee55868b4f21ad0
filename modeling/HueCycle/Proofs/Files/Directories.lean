/-
HueCycle.Proofs.Files.Directories — the directory that a file lies in, and
paths that start from it.

A path joined to a directory spells the place that it would spell if that
directory were the working directory. The parent of a path keeps the
segments before the last component, and those that it drops with it, empty
ones and dots, lead nowhere; so the parent of a path to a file spells the
place above the file.
-/
import Mathlib
import HueCycle.Proofs.Files.Contents

namespace HueCycle.Files.FileSystem

/-! ## §1 Joined paths -/

section Joining

variable {base path : Path}

theorem join_of_empty (hbase : base.bytes = []) (h : path.isAbsolute = false) :
    base.join path = path := by
  rw [Path.join, if_neg (by simp [h]), if_pos (.inl hbase), hbase]
  rfl

/-- Joined to a path that is not empty, a relative path stands behind the segments of that path, but
for an empty last one. -/
theorem exists_cut_join (hbase : base.bytes ≠ []) (h : path.isAbsolute = false) :
    ∃ front, front ≠ [] ∧ Path.cut (base.join path).bytes = front ++ Path.cut path.bytes ∧
      (Path.cut base.bytes = front ∨ Path.cut base.bytes = front ++ [[]]) := by
  rw [Path.join, if_neg (by simp [h])]
  by_cases hends : base.bytes.getLast? = some Path.slash
  · obtain ⟨front, hfront⟩ := List.getLast?_eq_some_iff.mp hends
    refine ⟨Path.cut front, Path.cut_ne_nil front, ?_, .inr ?_⟩
    · rw [if_pos (.inr hends), hfront, List.append_assoc, List.singleton_append, cut_append_slash]
    · rw [hfront, cut_append_slash]
      rfl
  · refine ⟨Path.cut base.bytes, Path.cut_ne_nil _, ?_, .inl rfl⟩
    rw [if_neg (by simp [hbase, hends]), cut_append_slash]

theorem segments_join_relative (h : path.isAbsolute = false) :
    segments (base.join path) = segments base ++ segments path := by
  by_cases hbase : base.bytes = []
  · rw [join_of_empty hbase h, segments, segments, hbase]
    rfl
  · obtain ⟨front, -, hcut, hsame⟩ := exists_cut_join hbase h
    rw [segments, segments, segments, hcut, List.filter_append]
    rcases hsame with hsame | hsame
    · rw [hsame]
    · rw [hsame, List.filter_append]
      simp

theorem start_join_relative (fs : FileSystem) (h : path.isAbsolute = false) :
    fs.start (base.join path) = fs.start base := by
  rw [Path.join, if_neg (by simp [h])]
  obtain ⟨bytes⟩ := base
  cases bytes with
  | nil =>
    rw [if_pos (.inl rfl), start, start, List.nil_append, h]
    rfl
  | cons b rest => split <;> rfl

/-- **A path joined to a directory is read from there.** -/
theorem placeOf_join (fs : FileSystem) (base path : Path) :
    fs.placeOf (base.join path) = FileSystem.placeOf { fs with cwd := fs.placeOf base } path := by
  cases h : path.isAbsolute with
  | true =>
    rw [Path.join, if_pos h, placeOf, placeOf, start, start, if_pos h, if_pos h]
  | false =>
    have hstart : FileSystem.start { fs with cwd := fs.placeOf base } path = fs.placeOf base :=
      if_neg (by simp [h])
    rw [placeOf, placeOf, segments_join_relative h, start_join_relative fs h, List.foldl_append,
      hstart]
    rfl

end Joining

/-! ## §2 Segments -/

section Segments

open HueCycle.Path

theorem cut_paste {segs : List Bytes} (hne : segs ≠ []) (hslash : ∀ s ∈ segs, slash ∉ s) :
    cut (paste segs) = segs := by
  induction segs with
  | nil => exact absurd rfl hne
  | cons s rest ih =>
    have hs := cut_of_not_mem (hslash s List.mem_cons_self)
    cases rest with
    | nil => exact hs
    | cons t rest =>
      rw [paste, cut_append_slash, hs, ih (List.cons_ne_nil _ _)
        fun u hu => hslash u (List.mem_cons_of_mem _ hu)]
      · rfl
      · simp

theorem slash_not_mem_of_mem_cut {bytes s : Bytes} (h : s ∈ cut bytes) : slash ∉ s := by
  induction bytes generalizing s with
  | nil => simp_all [cut]
  | cons b rest ih =>
    unfold cut at h
    split at h
    · rcases List.mem_cons.mp h with rfl | h
      · simp
      · exact ih h
    · rename_i hb
      obtain ⟨first, others, hcut⟩ := List.exists_cons_of_ne_nil (cut_ne_nil rest)
      rw [hcut] at h
      rcases List.mem_cons.mp h with rfl | h
      · have hfirst := ih (hcut ▸ List.mem_cons_self)
        simp [hfirst, Ne.symm hb]
      · exact ih (hcut ▸ List.mem_cons_of_mem _ h)

theorem paste_append (front : List Bytes) (s : Bytes) (hne : front ≠ []) :
    paste (front ++ [s]) = paste front ++ slash :: s := by
  induction front with
  | nil => exact absurd rfl hne
  | cons t front ih =>
    cases front with
    | nil => rfl
    | cons u front =>
      rw [List.cons_append, paste, paste, ih (List.cons_ne_nil _ _), List.append_assoc]
      · rfl
      · simp
      · simp

/-- A path that does not end in a slash ends in a segment that is not empty. -/
theorem exists_last_segment {bytes : Bytes} (hne : bytes ≠ []) (hends : bytes.getLast? ≠ some slash) :
    ∃ front s, cut bytes = front ++ [s] ∧ s ≠ [] := by
  obtain hnil | ⟨front, s, hcut⟩ := List.eq_nil_or_concat (cut bytes)
  · exact absurd hnil (cut_ne_nil bytes)
  rw [List.concat_eq_append] at hcut
  refine ⟨front, s, hcut, ?_⟩
  rintro rfl
  have hpaste := paste_cut bytes
  rw [hcut] at hpaste
  cases front with
  | nil => exact hne hpaste.symm
  | cons t front =>
    rw [paste_append _ _ (List.cons_ne_nil _ _)] at hpaste
    rw [← hpaste, List.getLast?_append_of_ne_nil _ (by simp)] at hends
    exact hends rfl

theorem head?_paste (s : Bytes) (rest : List Bytes) :
    (paste (s :: rest)).head? = if s = [] ∧ rest ≠ [] then some slash else s.head? := by
  cases rest with
  | nil => simp [paste]
  | cons t rest => cases s <;> simp [paste]

/-! ### Components -/

theorem significant_append_of_component {front : List Bytes} {s : Bytes}
    (h : isComponent front.length s = true) : significant (front ++ [s]) = front ++ [s] := by
  unfold significant
  simp [List.zipIdx_append, h]

theorem significant_append_of_other {front : List Bytes} {s : Bytes}
    (h : isComponent front.length s = false) : significant (front ++ [s]) = significant front := by
  unfold significant
  simp [List.zipIdx_append, h]

/-- What is kept ends in a component, and is a beginning. -/
theorem significant_cases (segs : List Bytes) :
    significant segs = [] ∨ ∃ front s, significant segs = front ++ [s] ∧ s ≠ [] ∧
      significant segs <+: segs := by
  induction segs using List.reverseRecOn with
  | nil => exact .inl rfl
  | append_singleton front s ih =>
    cases hs : isComponent front.length s with
    | true =>
      rw [significant_append_of_component hs]
      refine .inr ⟨front, s, rfl, ?_, List.prefix_rfl⟩
      rintro rfl
      cases hs
    | false =>
      rw [significant_append_of_other hs]
      rcases ih with hnil | ⟨before, t, hsplit, hne, hbegins⟩
      · exact .inl hnil
      · exact .inr ⟨before, t, hsplit, hne, hbegins.trans (List.prefix_append _ _)⟩

/-- What is dropped leads nowhere. -/
theorem foldl_significant (segs : List Bytes) (place : Place) :
    ((significant segs).filter (· ≠ [])).foldl step place =
      (segs.filter (· ≠ [])).foldl step place := by
  induction segs using List.reverseRecOn with
  | nil => rfl
  | append_singleton front s ih =>
    cases hs : isComponent front.length s with
    | true => rw [significant_append_of_component hs]
    | false =>
      rw [significant_append_of_other hs, ih, List.filter_append, List.foldl_append]
      have hkind : s = [] ∨ s = [dot] := by
        by_contra hother
        rw [not_or] at hother
        simp [isComponent, hother.1, hother.2] at hs
      rcases hkind with rfl | rfl
      · rfl
      · rfl

end Segments

/-! ## §3 The directory of a file -/

section Parents

open HueCycle.Path

variable {path : Path}

/-- The parent of a path that ends in a component spells what is kept of the segments before. -/
theorem parent?_eq {front : List Bytes} {name : Bytes} (hcut : cut path.bytes = front ++ [name])
    (hcomponent : isComponent front.length name = true) :
    path.parent? = some ⟨if significant front = [] then if path.isAbsolute then [slash] else []
      else paste (significant front)⟩ := by
  obtain ⟨t, rest, hsegments⟩ : ∃ t rest, front ++ [name] = t :: rest :=
    List.exists_cons_of_ne_nil (by simp)
  rw [parent?, hcut, significant_append_of_component hcomponent, hsegments]
  dsimp only
  rw [← hsegments, List.dropLast_concat]
  cases significant front <;> rfl

/-- The place of a path that ends in a name is in its parent. -/
theorem placeOf_parent (fs : FileSystem) {front : List Bytes} {name : Bytes}
    (hcut : cut path.bytes = front ++ [name]) (hname : Last.of name = .name name)
    (hne : name ≠ []) :
    ∃ parent, path.parent? = some parent ∧
      fs.placeOf path = fs.placeOf parent ++ [name] := by
  have hdot : name ≠ [dot] := by
    rintro rfl
    cases hname
  have hcomponent : isComponent front.length name = true := by simp [isComponent, hne, hdot]
  have hplace : fs.placeOf path =
      ((significant front).filter (· ≠ [])).foldl step (fs.start path) ++ [name] := by
    rw [foldl_significant, placeOf, segments, hcut, List.filter_append, List.foldl_append]
    simp [hne, step, hname, Last.place]
  have hparent := parent?_eq hcut hcomponent
  rcases significant_cases front with hnil | ⟨before, s, hsplit, hs, hbegins⟩
  · rw [hnil] at hplace
    rw [if_pos hnil] at hparent
    refine ⟨_, hparent, ?_⟩
    rw [hplace]
    cases habs : path.isAbsolute with
    | true => rw [start, habs]; rfl
    | false => rw [start, habs]; rfl
  · have hnotnil : significant front ≠ [] := by simp [hsplit]
    rw [if_neg hnotnil] at hparent
    have hsegment (t : Bytes) (ht : t ∈ significant front) : t ∈ cut path.bytes := by
      rw [hcut]
      exact List.mem_append_left _ (hbegins.subset ht)
    have hcutparent : cut (paste (significant front)) = significant front :=
      cut_paste hnotnil fun t ht => slash_not_mem_of_mem_cut (hsegment t ht)
    have habs : (⟨paste (significant front)⟩ : Path).isAbsolute = path.isAbsolute := by
      obtain ⟨t, more, hkept⟩ := List.exists_cons_of_ne_nil hnotnil
      obtain ⟨tail, htail⟩ := hbegins
      have hbytes : path.bytes = paste (t :: (more ++ tail ++ [name])) := by
        rw [← paste_cut path.bytes, hcut, ← htail, hkept]
        rfl
      have hmore : t = [] → more ≠ [] := by
        rintro rfl rfl
        rw [hsplit] at hkept
        obtain ⟨-, hlast⟩ := List.append_inj' (hkept.trans (List.nil_append _).symm) rfl
        exact hs (List.singleton_inj.mp hlast)
      rw [isAbsolute, isAbsolute, hkept, hbytes, head?_paste, head?_paste]
      by_cases ht : t = []
      · rw [if_pos ⟨ht, hmore ht⟩, if_pos ⟨ht, by simp⟩]
      · rw [if_neg fun h => ht h.1, if_neg fun h => ht h.1]
    refine ⟨_, hparent, ?_⟩
    rw [hplace, placeOf, segments, hcutparent, start, start, habs]

/-- Whatever is stored lies in a directory, and the working directory is one. -/
structure Rooted (fs : FileSystem) : Prop where
  cwd : fs.entry? fs.cwd = some .directory
  above : ∀ place entry, place ≠ [] → fs.entry? place = some entry →
    fs.entry? place.dropLast = some .directory

variable {fs : FileSystem} {place d : Place} {content : Bytes}

theorem Rooted.dropLast (h : Rooted fs) (hplace : fs.entry? place = some .directory) :
    fs.entry? place.dropLast = some .directory := by
  by_cases hroot : place = []
  · rw [hroot]
    rfl
  · exact h.above place _ hroot hplace

theorem Rooted.descend (h : Rooted fs) {segs : List Bytes}
    (hplace : fs.entry? place = some .directory) (hdescend : fs.descend place segs = .ok d) :
    fs.entry? d = some .directory := by
  induction segs generalizing place with
  | nil =>
    rw [FileSystem.descend, Except.ok.injEq] at hdescend
    rwa [← hdescend]
  | cons segment rest ih =>
    unfold FileSystem.descend at hdescend
    split at hdescend
    · exact ih (h.dropLast hplace) hdescend
    · split at hdescend
      · cases hdescend
      · split at hdescend
        · cases hdescend
        · cases hdescend
        · rename_i hentry
          exact ih hentry hdescend
    · exact ih hplace hdescend

/-- The path of a file ends in its name. -/
theorem Rooted.exists_name (h : Rooted fs) (hresolve : fs.resolve path = .ok place)
    (hentry : fs.entry? place = some (.file content)) :
    ∃ front name, cut path.bytes = front ++ [name] ∧ Last.of name = .name name ∧ name ≠ [] := by
  have hnot : fs.entry? place ≠ some .directory := by simp [hentry]
  unfold FileSystem.resolve at hresolve
  cases hlocate : fs.locate path with
  | error e =>
    rw [hlocate] at hresolve
    cases hresolve
  | ok l =>
    rw [hlocate] at hresolve
    dsimp only at hresolve
    rcases locate_eq_ok hlocate with ⟨-, -, rfl⟩ | ⟨init, last, hsegments, hdescend, hlast, hslash⟩
    · obtain rfl := Except.ok.inj hresolve
      exact absurd rfl hnot
    · have hdirectory : fs.entry? l.directory = some .directory := by
        refine h.descend ?_ hdescend
        unfold start
        split
        · rfl
        · exact h.cwd
      cases hkind : l.last with
      | root =>
        rw [hkind] at hresolve
        obtain rfl := Except.ok.inj hresolve
        exact absurd rfl hnot
      | here =>
        rw [hkind] at hresolve
        obtain rfl := Except.ok.inj hresolve
        exact absurd hdirectory hnot
      | up =>
        rw [hkind] at hresolve
        obtain rfl := Except.ok.inj hresolve
        exact absurd (h.dropLast hdirectory) hnot
      | name name =>
        have hslashless : path.bytes.getLast? ≠ some slash := by
          intro hends
          have htrue : l.slash = true := by rw [hslash, hends]; rfl
          simp only [hkind, htrue, if_true] at hresolve
          split at hresolve
          · cases hresolve
          · split at hresolve
            · cases hresolve
            · cases hresolve
            · rename_i hdirectory'
              obtain rfl := Except.ok.inj hresolve
              exact hnot hdirectory'
        have hbytes : path.bytes ≠ [] := by
          intro hnil
          rw [segments, hnil] at hsegments
          cases init <;> cases hsegments
        obtain ⟨front, s, hcut, hs⟩ := exists_last_segment hbytes hslashless
        have hlasts : segments path = front.filter (· ≠ []) ++ [s] := by
          rw [segments, hcut, List.filter_append]
          simp [hs]
        obtain ⟨-, hsame⟩ := List.append_inj' (hlasts.symm.trans hsegments) rfl
        obtain rfl := List.singleton_inj.mp hsame
        refine ⟨front, s, hcut, ?_, hs⟩
        rw [← hlast, hkind]
        rw [hkind] at hlast
        unfold Last.of at hlast
        split_ifs at hlast
        rw [Last.name.inj hlast]

/-- **Paths that are joined to the parent of a file are read from the place above the file.** -/
theorem Rooted.placeOf_join_parent (h : Rooted fs) (hread : fs.read path = .ok content) :
    ∃ parent, path.parent? = some parent ∧ ∀ p, fs.placeOf (parent.join p) =
      FileSystem.placeOf { fs with cwd := (fs.placeOf path).dropLast } p := by
  obtain ⟨-, hresolve, hentry⟩ := read_eq_ok_iff.mp hread
  obtain ⟨front, name, hcut, hname, hne⟩ := h.exists_name hresolve hentry
  obtain ⟨parent, hparent, hplace⟩ := placeOf_parent fs hcut hname hne
  refine ⟨parent, hparent, fun p => ?_⟩
  rw [placeOf_join, hplace, List.dropLast_concat]

end Parents

end HueCycle.Files.FileSystem
