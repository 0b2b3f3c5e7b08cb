import ChainGuard.Proofs.Host.Failure

/-!
# Paths that need not be absolute

A path may start at the working directory and go up by `..`, so its parts do not say where it
lies. But what is named directly below it lies directly in the directory that it leads to, as long
as the directories stay.

1. `Disk.walk_concat_eq_ok`: following one part more.
2. `Disk.Enters`: a path leads to a directory. `Disk.locate_child_eq_ok`, `Host.FindsIn`: what lies
   in it.
3. `Action.exists?_of_grows`: what is not there now was not there before.
4. `Action.leads_makeDirectory_grows`, `Action.makeDirectories_eq_ok`: directories at any path.
-/

namespace ChainGuard

/-! ## 1. One part more -/

namespace Disk

variable {disk after : Disk} {cwd here at_ : Location} {name : String} {p : Path}

theorem walk_append (disk : Disk) (here : Location) (front rest : List String) :
    disk.walk here (front ++ rest) =
      disk.walk here front >>= fun place => disk.walk place rest := by
  induction front generalizing here with
  | nil => rfl
  | cons part front ih =>
    rw [List.cons_append, walk, walk]
    split
    · rfl
    · rfl
    · split
      · exact ih here
      · split
        · exact ih here.dropLast
        · split
          · rfl
          · exact ih (here ++ [part])

/-- The last part of a name is looked for in a directory. -/
theorem walk_concat_eq_ok {front : List String} (hname : Path.Descends [name])
    (h : disk.walk here (front ++ [name]) = .ok at_) : ∃ place,
      disk.walk here front = .ok place ∧ disk.get? place = some .directory ∧
        at_ = place ++ [name] := by
  obtain ⟨hpart, hup⟩ := hname name List.mem_cons_self
  rw [walk_append] at h
  cases hfront : disk.walk here front with
  | error fault =>
    rw [hfront] at h
    cases h
  | ok place =>
    rw [hfront] at h
    change disk.walk place [name] = .ok at_ at h
    unfold walk at h
    rw [if_neg hpart.ne_dot, if_neg hup] at h
    split at h
    · cases h
    · cases h
    · next hdirectory =>
      split at h <;> cases h
      exact ⟨place, rfl, hdirectory, rfl⟩

/-- A part that is too long is found to be so wherever the directories on the way to it are. -/
theorem walk_mono_of_tooLong (hkeeps : disk.KeepsDirectories after) {parts : List String}
    (h : disk.walk here parts = .error .nameTooLong) :
    after.walk here parts = .error .nameTooLong := by
  induction parts generalizing here with
  | nil => cases h
  | cons part rest ih =>
    unfold walk at h ⊢
    split at h
    · cases h
    · cases h
    · next hdir =>
      rw [hkeeps here hdir]
      show (if _ then _ else _) = _
      split at h
      · next hdot => rw [if_pos hdot]; exact ih h
      · next hdot =>
        rw [if_neg hdot]
        split at h
        · next hup => rw [if_pos hup]; exact ih h
        · next hup =>
          rw [if_neg hup]
          split at h
          · next hlong => rw [if_pos hlong]
          · next hlong => rw [if_neg hlong]; exact ih h

theorem locate_mono_of_tooLong (hkeeps : disk.KeepsDirectories after)
    (h : disk.locate cwd name = .error .nameTooLong) :
    after.locate cwd name = .error .nameTooLong := by
  unfold locate locateSteps at h ⊢
  split at h
  · cases h
  · next hname =>
    rw [if_neg hname]
    split at h
    · next hlong => rw [if_pos hlong]
    · next hlong =>
      rw [if_neg hlong]
      exact walk_mono_of_tooLong hkeeps h

end Disk

/-! ## 2. What lies in the directory of a path -/

namespace Path

/-- Where a path starts, seen from the working directory. -/
def origin (cwd : Location) (p : Path) : Location :=
  if p.anchor = .relative then cwd else []

theorem start_render {p : Path} (h : p.IsRead) (cwd : Location) :
    Disk.start cwd p.render = p.origin cwd := by
  have hanchor : anchorOf p.render.toList = p.anchor := congrArg Path.anchor (ofString_render h)
  rw [Disk.start, hanchor, origin]

theorem IsRead.child {p : Path} (h : p.IsRead) {name : String} (hname : IsPart name) :
    (p.child name).IsRead := by
  intro s hs
  rcases List.mem_append.mp hs with hs | hs
  · exact h s hs
  · cases List.mem_singleton.mp hs
    exact hname

theorem steps_render_of_isRead {p : Path} (h : p.IsRead) (hne : p.parts ≠ []) :
    Disk.steps p.render = p.parts := by
  have hpieces := pieces_intercalate hne fun s hs => (h s hs).no_slash
  have hfilter : p.parts.filter (· != "") = p.parts :=
    List.filter_eq_self.mpr fun s hs => bne_iff_ne.mpr (h s hs).ne_empty
  obtain ⟨anchor, parts⟩ := p
  unfold Disk.steps
  rw [toList_render_of_ne fun hempty => hne hempty.2]
  dsimp only at hpieces hfilter ⊢
  cases anchor with
  | relative =>
    show List.filter _ (pieces (['/'].intercalate _)) = _
    rw [hpieces, hfilter]
  | root =>
    show List.filter _ (pieces ('/' :: ['/'].intercalate _)) = _
    rw [pieces_slash, List.filter_cons_of_neg (by decide), hpieces, hfilter]
  | doubleRoot =>
    show List.filter _ (pieces ('/' :: '/' :: ['/'].intercalate _)) = _
    rw [pieces_slash, pieces_slash, List.filter_cons_of_neg (by decide),
      List.filter_cons_of_neg (by decide), hpieces, hfilter]

end Path

namespace Disk

variable {disk after : Disk} {cwd at_ place : Location} {name : String} {p : Path}

/-- Followed from the working directory, the path leads to the directory at the place. -/
structure Enters (disk : Disk) (cwd : Location) (p : Path) (place : Location) : Prop where
  walked : disk.walk (p.origin cwd) p.parts = .ok place
  directory : disk.get? place = some .directory

theorem Enters.mono (h : disk.Enters cwd p place) (hkeeps : disk.KeepsDirectories after) :
    after.Enters cwd p place :=
  ⟨walk_mono hkeeps h.walked, hkeeps place h.directory⟩

theorem Enters.unique {other : Location} (h : disk.Enters cwd p place)
    (h' : disk.Enters cwd p other) : other = place :=
  Except.ok.inj (h'.walked.symm.trans h.walked)

/-- A name that was found is not too long, so its steps were followed. -/
theorem walk_of_locate_child (hp : p.IsRead) (hname : Path.Descends [name])
    (h : disk.locate cwd (p.child name).render = .ok at_) :
    disk.walk (p.origin cwd) (p.parts ++ [name]) = .ok at_ := by
  have hchild : (p.child name).IsRead := hp.child (hname name List.mem_cons_self).1
  have hne : (p.child name).parts ≠ [] := List.append_ne_nil_of_right_ne_nil _ nofun
  unfold locate locateSteps at h
  rw [Path.steps_render_of_isRead hchild hne, Path.start_render hchild] at h
  split at h
  · cases h
  · split at h
    · cases h
    · exact h

/-- What is found directly below a path lies in the directory that the path leads to. -/
theorem locate_child_eq_ok (hp : p.IsRead) (hname : Path.Descends [name])
    (h : disk.locate cwd (p.child name).render = .ok at_) :
    ∃ place, disk.Enters cwd p place ∧ at_ = place ++ [name] := by
  obtain ⟨place, hwalk, hdirectory, hat⟩ :=
    walk_concat_eq_ok hname (walk_of_locate_child hp hname h)
  exact ⟨place, ⟨hwalk, hdirectory⟩, hat⟩

theorem Enters.at_of_locate (h : disk.Enters cwd p place) (hp : p.IsRead)
    (hname : Path.Descends [name]) (hlocate : disk.locate cwd (p.child name).render = .ok at_) :
    at_ = place ++ [name] := by
  obtain ⟨other, henters, rfl⟩ := locate_child_eq_ok hp hname hlocate
  rw [h.unique henters]

/-- A directory that is found directly below a path is entered by its own path. -/
theorem enters_child (hp : p.IsRead) (hname : Path.Descends [name])
    (h : disk.locate cwd (p.child name).render = .ok at_)
    (hdirectory : disk.get? at_ = some .directory) : disk.Enters cwd (p.child name) at_ :=
  ⟨walk_of_locate_child hp hname h, hdirectory⟩

end Disk

namespace Host

/-- What is found directly below the path lies directly in the place, as long as the directories
stay. -/
def FindsIn (w : Host) (p : Path) (place : Location) : Prop :=
  ∀ v : Host, v.cwd = w.cwd → w.disk.KeepsDirectories v.disk → ∀ name at_, Path.Descends [name] →
    v.disk.locate v.cwd (p.child name).render = .ok at_ → at_ = place ++ [name]

theorem FindsIn.mono {w v : Host} {p : Path} {place : Location} (h : w.FindsIn p place)
    (hcwd : v.cwd = w.cwd) (hkeeps : w.disk.KeepsDirectories v.disk) : v.FindsIn p place :=
  fun u hu hkeeps' => h u (hu.trans hcwd) fun at_ hdir => hkeeps' at_ (hkeeps at_ hdir)

theorem findsIn_root (w : Host) {place : List String} (hplace : Path.Descends place) :
    w.FindsIn ⟨.root, place⟩ place :=
  fun _ _ _ _ _ hname hlocate => (Disk.locate_render_eq_ok (hplace.append hname) hlocate).1

theorem findsIn_of_enters {w : Host} {p : Path} {place : Location} (hp : p.IsRead)
    (h : w.disk.Enters w.cwd p place) : w.FindsIn p place := by
  intro v hcwd hkeeps name at_ hname hlocate
  rw [hcwd] at hlocate
  exact (h.mono hkeeps).at_of_locate hp hname hlocate

end Host

/-! ## 3. Before and after -/

namespace Host

theorem Grows.keepsDirectories {w w' : Host} (h : w.Grows w') :
    w.disk.KeepsDirectories w'.disk := by
  intro at_ hdir
  rw [h.get? (Disk.has_of_get? hdir), hdir]

theorem Grows.has_eq_false {w w' : Host} (h : w.Grows w') {at_ : Location}
    (hhas : w'.disk.has at_ = false) : w.disk.has at_ = false := by
  rw [Bool.eq_false_iff]
  intro hthere
  rw [Disk.has, h.get? hthere] at hhas
  cases hthere.symm.trans hhas

end Host

namespace Disk

variable {disk after : Disk} {cwd : Location} {name : String}

/-- What is found where nothing is lost is found later. -/
theorem find?_mono (hkept : ∀ at_ entry, disk.get? at_ = some entry → after.get? at_ = some entry)
    {found : Location × Entry} (h : disk.find? cwd name = .ok found) :
    after.find? cwd name = .ok found := by
  obtain ⟨at_, entry⟩ := found
  obtain ⟨hlocate, hget⟩ := find?_eq_ok h
  refine find?_of_locate (locate_mono (fun place => hkept place .directory) hlocate)
    (hkept _ _ hget) ?_
  cases entry with
  | directory => exact Or.inl rfl
  | file content =>
    right
    unfold find? at h
    rw [hlocate] at h
    simp only [bind, Except.bind, hget] at h
    split at h
    · cases h
    · next hslash => exact Bool.eq_false_iff.mpr hslash

/-- A name that is too long to be found is too long later. -/
theorem find?_mono_of_tooLong (hkeeps : disk.KeepsDirectories after)
    (h : disk.find? cwd name = .error .nameTooLong) :
    after.find? cwd name = .error .nameTooLong := by
  have hlocate : disk.locate cwd name = .error .nameTooLong := by
    unfold find? at h
    cases hlocate : disk.locate cwd name with
    | error fault =>
      rw [hlocate] at h
      cases h
      rfl
    | ok at_ =>
      rw [hlocate] at h
      dsimp only [bind, Except.bind] at h
      split at h
      · cases h
      · split at h <;> cases h
      · cases h
  unfold find?
  rw [locate_mono_of_tooLong hkeeps hlocate]
  rfl

end Disk

namespace Action

variable {p : Path} {w w' : Host}

/-- What lies at a path is what the disk finds by its text. -/
theorem runIn_lookup_eq (p : Path) (w : Host) :
    (lookup p).runIn w =
      (if p.render.toList.contains '\x00' then .ok none
        else match w.disk.find? w.cwd p.render with
          | .ok found => .ok (some found.2)
          | .error fault =>
            if fault.isAbsence then .ok none else .error (.disk { fault, name := p.render }), w) := by
  unfold lookup
  rw [runIn_bind, runIn_get]
  dsimp only
  split
  · rfl
  · cases w.disk.find? w.cwd p.render with
    | ok found => rfl
    | error fault =>
      dsimp only
      split <;> rfl

/-- What lies at a path was located. -/
theorem find?_of_lookup {entry : Entry}
    (h : (lookup p).runIn w = (.ok (some entry), w')) :
    w' = w ∧ ∃ at_, w.disk.find? w.cwd p.render = .ok (at_, entry) := by
  rw [runIn_lookup_eq, Prod.mk.injEq] at h
  refine ⟨h.2.symm, ?_⟩
  replace h := h.1
  split at h
  · cases h
  · split at h
    · next found hfind =>
      cases h
      exact ⟨found.1, hfind⟩
    · split at h <;> cases h

/-- A path does not exist if nothing is found, for a reason that says so. -/
theorem exists?_eq_ok_false_iff : (exists? p).runIn w = (.ok false, w) ↔
    p.render.toList.contains '\x00' = true ∨
      ∃ fault, w.disk.find? w.cwd p.render = .error fault ∧ fault.isAbsence = true := by
  unfold exists?
  rw [runIn_bind, runIn_lookup_eq]
  cases p.render.toList.contains '\x00' with
  | true => exact ⟨fun _ => .inl rfl, fun _ => rfl⟩
  | false =>
    cases w.disk.find? w.cwd p.render with
    | ok found =>
      constructor
      · intro h
        cases h
      · rintro (h | ⟨_, h, -⟩) <;> cases h
    | error fault =>
      constructor
      · intro h
        refine .inr ⟨fault, rfl, ?_⟩
        cases hfault : fault.isAbsence with
        | true => rfl
        | false => simp [hfault] at h
      · rintro (h | ⟨_, ⟨⟩, hfault⟩)
        · cases h
        · simp [hfault]

theorem locate_of_exists? (h : (exists? p).runIn w = (.ok true, w')) :
    w' = w ∧ ∃ at_, w.disk.locate w.cwd p.render = .ok at_ ∧ w.disk.has at_ = true := by
  obtain ⟨found, v, hlook, hend⟩ := runIn_bind_eq_ok h
  cases found with
  | none => cases hend
  | some entry =>
    cases hend
    obtain ⟨hsame, at_, hfind⟩ := find?_of_lookup hlook
    obtain ⟨hlocate, hget⟩ := Disk.find?_eq_ok hfind
    exact ⟨hsame, at_, hlocate, Disk.has_of_get? hget⟩

theorem runIn_exists?_of_hasFile {at_ : Location} {content : Bytes}
    (h : w.HasFile p.render at_ content) : (exists? p).runIn w = (.ok true, w) := by
  have hfind := Disk.find?_of_locate h.located h.get? (Or.inr h.noSlash)
  have hlook : (lookup p).runIn w = (.ok (some (.file content)), w) := by
    rw [runIn_lookup_eq, h.noNull, if_neg Bool.false_ne_true, hfind]
  exact runIn_bind_of_ok hlook

/-- What is not there now was not there before, if nothing was lost. A name that was too long still
is, so it would not be found absent. -/
theorem exists?_of_grows (hgrows : w.Grows w') (h : (exists? p).runIn w' = (.ok false, w')) :
    (exists? p).runIn w = (.ok false, w) := by
  rw [exists?_eq_ok_false_iff, hgrows.cwd] at h
  refine exists?_eq_ok_false_iff.mpr (h.imp_right fun ⟨fault, hnow, habsence⟩ => ?_)
  have hkept : ∀ at_ entry, w.disk.get? at_ = some entry → w'.disk.get? at_ = some entry := by
    intro at_ entry hget
    rw [hgrows.get? (Disk.has_of_get? hget), hget]
  cases hfind : w.disk.find? w.cwd p.render with
  | ok found => cases (Disk.find?_mono hkept hfind).symm.trans hnow
  | error before =>
    refine ⟨before, rfl, ?_⟩
    rcases Disk.find?_eq_error hfind with habsent | ⟨rfl, -⟩
    · exact habsent
    · cases (Disk.find?_mono_of_tooLong hgrows.keepsDirectories hfind).symm.trans hnow
      cases habsence

/-! ## 4. Directories -/

theorem leads_makeDirectory_grows (p : Path) : Leads Host.Grows (makeDirectory p) := by
  intro w
  rcases makeDirectory_cases p w with ⟨e, hrun⟩ | ⟨at_, w', hrun, -, hhas, hperforms⟩
  · rw [hrun]
    exact Host.isFrame_grows.quiet (.refl w)
  · rw [hrun]
    exact Host.makesAt_grows at_ w w' hhas hperforms

theorem leads_ensureDirectory_grows (p : Path) : Leads Host.Grows (ensureDirectory p) := by
  have hR := Host.isFrame_grows
  refine .bind hR (.attempt (leads_makeDirectory_grows p)) fun result => ?_
  cases result with
  | ok => exact .pure hR _
  | error e =>
    refine .bind hR (.of_quiet hR (leads_isDirectory p)) fun there => ?_
    exact .ite (.pure hR _) (.throw hR _)

theorem leads_ensureDirectories_grows (n : Nat) (p : Path) :
    Leads Host.Grows (ensureDirectories n p) := by
  have hR := Host.isFrame_grows
  induction n generalizing p with
  | zero => exact leads_ensureDirectory_grows p
  | succ n ih =>
    refine .bind hR (.attempt (leads_makeDirectory_grows p)) fun result => ?_
    cases result with
    | ok => exact .pure hR _
    | error e =>
      refine .ite (.bind hR (ih _) fun _ => leads_ensureDirectory_grows p)
        (.bind hR (.of_quiet hR (leads_isDirectory p)) fun there => ?_)
      exact .ite (.pure hR _) (.throw hR _)

theorem locate_of_makeDirectory (h : (makeDirectory p).runIn w = (.ok (), w')) :
    ∃ at_, w.disk.locate w.cwd p.render = .ok at_ ∧ w.disk.has at_ = false ∧
      w.Performs [.makeDirectory at_] w' := by
  rcases makeDirectory_cases p w with ⟨e, hrun⟩ | ⟨at_, v, hrun, hmade⟩
  · cases hrun.symm.trans h
  · cases hrun.symm.trans h
    exact ⟨at_, hmade⟩

theorem noNull_of_makeDirectory (h : (makeDirectory p).runIn w = (.ok (), w')) :
    p.render.toList.contains '\x00' = false := by
  rw [Bool.eq_false_iff]
  intro hnull
  have hask := runIn_ask p.render (fun disk cwd => disk.makeDirectory cwd p.render) w
  rw [if_pos hnull] at hask
  cases (runIn_bind_of_error hask).symm.trans h

/-- What is found to be a directory lies where its path leads. -/
theorem locate_of_isDirectory (h : (isDirectory p).runIn w = (.ok true, w')) :
    w' = w ∧ ∃ at_, w.disk.locate w.cwd p.render = .ok at_ ∧
      w.disk.get? at_ = some .directory := by
  obtain ⟨found, v, hlook, hend⟩ := runIn_bind_eq_ok h
  have hfound : found = some .directory ∧ w' = v := by
    cases found with
    | none => cases hend
    | some entry =>
      cases entry with
      | directory => cases hend; exact ⟨rfl, rfl⟩
      | file content => cases hend
  obtain ⟨rfl, rfl⟩ := hfound
  obtain ⟨hsame, at_, hfind⟩ := find?_of_lookup hlook
  exact ⟨hsame, at_, Disk.find?_eq_ok hfind⟩

theorem locate_of_ensureDirectory (h : (ensureDirectory p).runIn w = (.ok (), w')) :
    ∃ at_, w.disk.locate w.cwd p.render = .ok at_ ∧ w'.disk.get? at_ = some .directory ∧
      (w' = w ∨ w.disk.has at_ = false ∧ w.Performs [.makeDirectory at_] w') := by
  have hattempt := runIn_attempt (makeDirectory p) w
  rcases hmake : (makeDirectory p).runIn w with ⟨made, v⟩
  rw [hmake] at hattempt
  unfold ensureDirectory at h
  rw [runIn_bind_of_ok hattempt] at h
  cases made with
  | ok =>
    cases h
    obtain ⟨at_, hlocate, hhas, hperforms⟩ := locate_of_makeDirectory hmake
    have hroot : at_ ≠ [] := by
      rintro rfl
      cases hhas
    refine ⟨at_, hlocate, ?_, Or.inr ⟨hhas, hperforms⟩⟩
    rw [hperforms.disk]
    exact Disk.get?_set_self _ hroot
  | error e =>
    cases makeDirectory_eq_error hmake
    obtain ⟨there, v, hthere, hend⟩ := runIn_bind_eq_ok h
    cases there with
    | false => cases hend
    | true =>
      cases hend
      obtain ⟨rfl, at_, hlocate, hdirectory⟩ := locate_of_isDirectory hthere
      exact ⟨at_, hlocate, hdirectory, Or.inl rfl⟩

/-- Making a directory with those above it makes the directory last. -/
theorem makeDirectories_eq_ok (h : (makeDirectories p).runIn w = (.ok (), w')) :
    ∃ v : Host, w.Grows v ∧ (makeDirectory p).runIn v = (.ok (), w') := by
  have hattempt := runIn_attempt (makeDirectory p) w
  rcases hmake : (makeDirectory p).runIn w with ⟨made, v⟩
  rw [hmake] at hattempt
  unfold makeDirectories at h
  rw [runIn_bind_of_ok hattempt] at h
  cases made with
  | ok =>
    cases h
    exact ⟨w, Host.isFrame_grows.quiet (.refl w), hmake⟩
  | error e =>
    cases makeDirectory_eq_error hmake
    dsimp only at h
    split at h
    · obtain ⟨⟨⟩, v, hensure, hend⟩ := runIn_bind_eq_ok h
      exact ⟨v, (leads_ensureDirectories_grows _ _).of_run hensure, hend⟩
    · cases h

end Action

end ChainGuard
