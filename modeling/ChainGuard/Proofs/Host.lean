import ChainGuard.Host
import ChainGuard.Proofs.Disk

/-!
# What actions do to the host

An action is a sequence of steps, and what it has done up to a failure stays done. So a relation
between hosts that holds over every step holds over the whole action, however it ends.

1. `runIn_bind`, `runIn_attempt`: running composed actions.
2. `Leads`: a relation holds between the host before an action and the host after it. `IsFrame`: it
   can be composed, and actions that leave the disk alone bring it about.
3. `Quiet`: actions that leave the disk alone.
4. `writeText_cases`, `makeDirectory_cases`: the actions that change the disk, and which changes
   they can make.
5. `Spares`, `Grows`: places that no change touches. `Always`: what holds of the disk at every
   instant, that is after each beginning of the changes.
-/

namespace ChainGuard

namespace Action

variable {α β : Type}

/-! ## 1. Runs -/

@[simp]
theorem runIn_pure (a : α) (w : Host) : (pure a : Action α).runIn w = (.ok a, w) := rfl

@[simp]
theorem runIn_get (w : Host) : (get : Action Host).runIn w = (.ok w, w) := rfl

@[simp]
theorem runIn_set (w w' : Host) : (set w' : Action PUnit).runIn w = (.ok ⟨⟩, w') := rfl

@[simp]
theorem runIn_workingDirectory (w : Host) :
    workingDirectory.runIn w = (.ok ⟨.root, w.cwd⟩, w) := rfl

theorem runIn_readJson (t : Text) (w : Host) :
    (readJson t).runIn w = (.ok (JsonValue.read w.levels t), w) := rfl

theorem runIn_bind (x : Action α) (f : α → Action β) (w : Host) :
    (x >>= f).runIn w =
      match x.runIn w with
      | (.ok a, w') => (f a).runIn w'
      | (.error e, w') => (.error e, w') := by
  show StateT.run (ExceptT.bindCont f (x.runIn w).1) (x.runIn w).2 = _
  rcases x.runIn w with ⟨result, w'⟩
  cases result <;> rfl

theorem runIn_bind_of_ok {x : Action α} {f : α → Action β} {w w' : Host} {a : α}
    (h : x.runIn w = (.ok a, w')) : (x >>= f).runIn w = (f a).runIn w' := by
  rw [runIn_bind, h]

theorem runIn_bind_of_error {x : Action α} {f : α → Action β} {w w' : Host} {e : Failure}
    (h : x.runIn w = (.error e, w')) : (x >>= f).runIn w = (.error e, w') := by
  rw [runIn_bind, h]

/-- A composed action that succeeds has steps that succeed. -/
theorem runIn_bind_eq_ok {x : Action α} {f : α → Action β} {w w' : Host} {b : β}
    (h : (x >>= f).runIn w = (.ok b, w')) :
    ∃ a v, x.runIn w = (.ok a, v) ∧ (f a).runIn v = (.ok b, w') := by
  rw [runIn_bind] at h
  split at h
  · next a v hx => exact ⟨a, v, hx, h⟩
  · cases h

theorem runIn_map (f : α → β) (x : Action α) (w : Host) :
    (f <$> x).runIn w = ((x.runIn w).1.map f, (x.runIn w).2) := by
  rw [map_eq_pure_bind, runIn_bind]
  rcases x.runIn w with ⟨result, w'⟩
  cases result <;> rfl

theorem runIn_tryCatch (x : Action α) (handle : Failure → Action α) (w : Host) :
    (tryCatch x handle).runIn w =
      match x.runIn w with
      | (.ok a, w') => (.ok a, w')
      | (.error e, w') => (handle e).runIn w' := by
  unfold runIn
  show StateT.run (ExceptT.run (ExceptT.tryCatch x handle)) w = _
  unfold ExceptT.tryCatch
  simp only [ExceptT.run, ExceptT.mk, bind, StateT.bind, StateT.run]
  rcases x w with ⟨result, w'⟩
  cases result <;> rfl

/-- An attempt always succeeds, and leaves the host as the action does. -/
@[simp]
theorem runIn_attempt (x : Action α) (w : Host) :
    (attempt x).runIn w = (.ok (x.runIn w).1, (x.runIn w).2) := by
  rw [attempt, runIn_tryCatch, runIn_map]
  rcases x.runIn w with ⟨result, w'⟩
  cases result <;> rfl

@[simp]
theorem runIn_lift (r : Except Failure α) (w : Host) : (lift r).runIn w = (r, w) := by
  cases r <;> rfl

end Action

/-! ## 2. Relations between hosts -/

namespace Host

/-- The disk and the working directory are the same. -/
structure SameDisk (w w' : Host) : Prop where
  disk : w'.disk = w.disk
  cwd : w'.cwd = w.cwd

/-- The disk was not changed at all. -/
structure Quiet (w w' : Host) : Prop extends SameDisk w w' where
  trace : w'.trace = w.trace
  clock : w'.clock = w.clock

/-- These changes of the disk were made, one after the other. -/
structure Performs (w : Host) (changes : List Mutation) (w' : Host) : Prop where
  disk : w'.disk = Mutation.applyAll w.disk changes
  trace : w'.trace = w.trace ++ changes
  cwd : w'.cwd = w.cwd
  clock : w'.clock = w.clock

theorem SameDisk.trans {a b c : Host} (hab : a.SameDisk b) (hbc : b.SameDisk c) : a.SameDisk c :=
  ⟨hbc.disk.trans hab.disk, hbc.cwd.trans hab.cwd⟩

theorem Quiet.refl (w : Host) : w.Quiet w :=
  ⟨⟨rfl, rfl⟩, rfl, rfl⟩

theorem Quiet.trans {a b c : Host} (hab : a.Quiet b) (hbc : b.Quiet c) : a.Quiet c :=
  ⟨hab.toSameDisk.trans hbc.toSameDisk, hbc.trace.trans hab.trace,
    hbc.clock.trans hab.clock⟩

theorem Quiet.performs {w w' : Host} (h : w.Quiet w') : w.Performs [] w' :=
  ⟨h.disk, by rw [h.trace, List.append_nil], h.cwd, h.clock⟩

theorem Performs.append {a b c : Host} {first second : List Mutation} (hab : a.Performs first b)
    (hbc : b.Performs second c) : a.Performs (first ++ second) c where
  disk := by rw [Mutation.applyAll_append, ← hab.disk, hbc.disk]
  trace := by rw [hbc.trace, hab.trace, List.append_assoc]
  cwd := hbc.cwd.trans hab.cwd
  clock := hbc.clock.trans hab.clock

end Host

namespace Action

variable {α β : Type} {R : Host → Host → Prop}

/-- The relation holds between the host before the action and the host after it, whatever comes of
the action. -/
def Leads (R : Host → Host → Prop) (x : Action α) : Prop :=
  ∀ w, R w (x.runIn w).2

/-- The relation can be composed, and leaving the disk alone brings it about. -/
structure IsFrame (R : Host → Host → Prop) : Prop where
  quiet : ∀ {w w' : Host}, w.Quiet w' → R w w'
  trans : ∀ {a b c : Host}, R a b → R b c → R a c

theorem isFrame_quiet : IsFrame Host.Quiet where
  quiet h := h
  trans := Host.Quiet.trans

namespace Leads

theorem of_run {x : Action α} (hx : Leads R x) {w w' : Host} {result : Except Failure α}
    (h : x.runIn w = (result, w')) : R w w' := by
  have hw := hx w
  rwa [h] at hw

theorem of_quiet (hR : IsFrame R) {x : Action α} (h : Leads Host.Quiet x) : Leads R x :=
  fun w => hR.quiet (h w)

theorem pure (hR : IsFrame R) (a : α) : Leads R (pure a : Action α) :=
  fun _ => hR.quiet (.refl _)

theorem throw (hR : IsFrame R) (e : Failure) : Leads R (throw e : Action α) :=
  fun _ => hR.quiet (.refl _)

theorem lift (hR : IsFrame R) (r : Except Failure α) : Leads R (Action.lift r) := by
  intro w
  rw [runIn_lift]
  exact hR.quiet (.refl _)

/-- One step after the other, from a given host on. The second step may rely on what the first one
gave. -/
theorem bind_from (hR : IsFrame R) {x : Action α} {f : α → Action β} {w : Host}
    (hx : R w (x.runIn w).2) (hf : ∀ a v, x.runIn w = (.ok a, v) → R v ((f a).runIn v).2) :
    R w ((x >>= f).runIn w).2 := by
  rw [runIn_bind]
  split
  · next a v hrun =>
    rw [hrun] at hx
    exact hR.trans hx (hf a v hrun)
  · next e v hrun =>
    rw [hrun] at hx
    exact hx

theorem bind (hR : IsFrame R) {x : Action α} {f : α → Action β} (hx : Leads R x)
    (hf : ∀ a, Leads R (f a)) : Leads R (x >>= f) :=
  fun w => bind_from hR (hx w) fun a v _ => hf a v

theorem attempt {x : Action α} (hx : Leads R x) : Leads R (Action.attempt x) := by
  intro w
  rw [runIn_attempt]
  exact hx w

theorem ite {c : Prop} [Decidable c] {x y : Action α} (hx : Leads R x) (hy : Leads R y) :
    Leads R (if c then x else y) := by
  split
  · exact hx
  · exact hy

end Leads

/-! ## 3. Actions that leave the disk alone -/

theorem leads_note (level : Level) (source text : String) :
    Leads Host.Quiet (note level source text) :=
  fun _ => ⟨⟨rfl, rfl⟩, rfl, rfl⟩

theorem leads_parse (name : String) (text : Text) : Leads Host.Quiet (parse name text) :=
  fun _ => ⟨⟨rfl, rfl⟩, rfl, rfl⟩

theorem leads_launch (command : List String) (directory : Path) :
    Leads Host.Quiet (launch command directory) :=
  fun _ => ⟨⟨rfl, rfl⟩, rfl, rfl⟩

theorem runIn_ask (name : String) (question : Disk → Location → Except DiskFault α) (w : Host) :
    (ask name question).runIn w =
      (if name.toList.contains '\x00' then .error .nullInName
        else (question w.disk w.cwd).mapError fun fault => .disk { fault, name }, w) := by
  unfold ask
  split
  · rfl
  · rw [runIn_bind, runIn_get]
    dsimp only
    cases question w.disk w.cwd <;> rfl

theorem leads_ask (name : String) (question : Disk → Location → Except DiskFault α) :
    Leads Host.Quiet (ask name question) := by
  intro w
  rw [runIn_ask]
  exact .refl w

theorem runIn_lookup (p : Path) (w : Host) : ((lookup p).runIn w).2 = w := by
  unfold lookup
  rw [runIn_bind, runIn_get]
  dsimp only
  split
  · rfl
  · split
    · rfl
    · split <;> rfl

theorem leads_lookup (p : Path) : Leads Host.Quiet (lookup p) := by
  intro w
  rw [runIn_lookup]
  exact .refl w

/-- Asking whether a path exists changes nothing at all. -/
theorem host_of_exists? {p : Path} {answer : Except Failure Bool} {w w' : Host}
    (h : (exists? p).runIn w = (answer, w')) : w' = w := by
  have hlook := runIn_lookup p w
  unfold exists? at h
  rw [runIn_bind] at h
  rcases hrun : (lookup p).runIn w with ⟨result, v⟩
  rw [hrun] at h hlook
  cases result <;> cases h <;> exact hlook

theorem leads_exists? (p : Path) : Leads Host.Quiet (exists? p) :=
  .bind isFrame_quiet (leads_lookup p) fun _ => .pure isFrame_quiet _

theorem leads_isDirectory (p : Path) : Leads Host.Quiet (isDirectory p) :=
  .bind isFrame_quiet (leads_lookup p) fun _ => .pure isFrame_quiet _

theorem leads_isFile (p : Path) : Leads Host.Quiet (isFile p) :=
  .bind isFrame_quiet (leads_lookup p) fun _ => .pure isFrame_quiet _

theorem leads_readJson (t : Text) : Leads Host.Quiet (readJson t) :=
  fun w => .refl w

theorem leads_resolve (p : Path) : Leads Host.Quiet (resolve p) := by
  unfold resolve
  split
  · exact .throw isFrame_quiet _
  · exact fun w => .refl w

theorem resolve_eq_ok {p place : Path} {w w' : Host}
    (h : (resolve p).runIn w = (.ok place, w')) :
    place = Path.resolve ⟨.root, w.cwd⟩ p ∧ w' = w := by
  unfold resolve at h
  split at h
  · cases h
  · cases h
    exact ⟨rfl, rfl⟩

theorem leads_readText (name : String) : Leads Host.Quiet (readText name) := by
  refine .bind isFrame_quiet (leads_ask name _) fun bytes => ?_
  split
  · exact .pure isFrame_quiet _
  · exact .throw isFrame_quiet _

theorem leads_filterM {p : α → Action Bool} (hp : ∀ a, Leads Host.Quiet (p a)) (as : List α) :
    Leads Host.Quiet (as.filterM p) := by
  have hR := isFrame_quiet
  have haux : ∀ kept, Leads Host.Quiet (as.filterAuxM p kept) := by
    induction as with
    | nil => exact fun kept => .pure hR _
    | cons a rest ih => exact fun kept => .bind hR (hp a) fun keep => ih _
  exact .bind hR (haux []) fun _ => .pure hR _

/-- Filtering by a test whose answers are known. -/
theorem filterM_eq_ok {p : α → Action Bool} {q : α → Bool} {I : Host → Prop}
    (hp : ∀ a keep u u', I u → (p a).runIn u = (.ok keep, u') → keep = q a ∧ I u')
    {as out : List α} {w w' : Host} (hw : I w) (h : (as.filterM p).runIn w = (.ok out, w')) :
    out = as.filter q ∧ I w' := by
  have haux : ∀ (kept out : List α) (w w' : Host), I w →
      (as.filterAuxM p kept).runIn w = (.ok out, w') →
      out = (as.filter q).reverse ++ kept ∧ I w' := by
    clear h hw
    induction as with
    | nil =>
      intro kept out w w' hw h
      cases h
      exact ⟨rfl, hw⟩
    | cons first rest ih =>
      intro kept out w w' hw h
      obtain ⟨keep, v, hfirst, hrest⟩ := runIn_bind_eq_ok h
      obtain ⟨hkeep, hv⟩ := hp first keep w v hw hfirst
      obtain ⟨hout, hend⟩ := ih _ out v w' hv hrest
      refine ⟨?_, hend⟩
      rw [hout, List.filter_cons, ← hkeep]
      cases keep <;> simp
  obtain ⟨kept, v, hkept, hout⟩ := runIn_bind_eq_ok h
  cases hout
  obtain ⟨rfl, hend⟩ := haux [] kept w _ hw hkept
  rw [List.append_nil, List.reverse_reverse]
  exact ⟨rfl, hend⟩

/-- Filtering by a test that always answers. -/
theorem runIn_filterM {p : α → Action Bool} {q : α → Bool} {as : List α} {w : Host}
    (hp : ∀ a ∈ as, (p a).runIn w = (.ok (q a), w)) :
    (as.filterM p).runIn w = (.ok (as.filter q), w) := by
  have haux : ∀ kept,
      (as.filterAuxM p kept).runIn w = (.ok ((as.filter q).reverse ++ kept), w) := by
    induction as with
    | nil => exact fun kept => rfl
    | cons first rest ih =>
      intro kept
      rw [List.filterAuxM, runIn_bind_of_ok (hp first List.mem_cons_self),
        ih fun a ha => hp a (List.mem_cons_of_mem _ ha), List.filter_cons]
      cases q first <;> simp
  refine (runIn_bind_of_ok (haux [])).trans ?_
  rw [List.append_nil, List.reverse_reverse]
  rfl

/-! ## 4. Actions that change the disk -/

/-- Asking the disk either fails, or gives what the disk says. -/
theorem runIn_ask_cases (name : String) (question : Disk → Location → Except DiskFault α)
    (w : Host) :
    (∃ e, (ask name question).runIn w = (.error e, w)) ∨
    ∃ a, question w.disk w.cwd = .ok a ∧ (ask name question).runIn w = (.ok a, w) := by
  rw [runIn_ask]
  split
  · exact Or.inl ⟨_, rfl⟩
  · cases question w.disk w.cwd with
    | error fault => exact Or.inl ⟨_, rfl⟩
    | ok a => exact Or.inr ⟨a, rfl, rfl⟩

/-- Writing a text either fails and changes nothing, or sets the file that the name stands for. -/
theorem writeText_cases (name : String) (t : Text) (w : Host) :
    (∃ e, (writeText name t).runIn w = (.error e, w)) ∨
    ∃ at_ w', (writeText name t).runIn w = (.ok (), w') ∧ w.disk.locate w.cwd name = .ok at_ ∧
      w.disk.get? at_ ≠ some .directory ∧
      w.Performs [.truncate at_, .write at_ (Utf8.encode t)] w' := by
  unfold writeText
  rcases runIn_ask_cases name (fun disk cwd => disk.writable cwd name) w with
    ⟨e, hask⟩ | ⟨at_, hwritable, hask⟩
  · exact Or.inl ⟨e, runIn_bind_of_error hask⟩
  · obtain ⟨hlocate, hfile⟩ := Disk.writable_eq_ok hwritable
    refine Or.inr ⟨at_, _, runIn_bind_of_ok hask, hlocate, hfile, rfl, ?_, rfl, rfl⟩
    exact List.append_assoc w.trace [_] [_]

/-- Making a directory either fails and changes nothing, or sets a directory where nothing was. -/
theorem makeDirectory_cases (p : Path) (w : Host) :
    (∃ e, (makeDirectory p).runIn w = (.error e, w)) ∨
    ∃ at_ w', (makeDirectory p).runIn w = (.ok (), w') ∧
      w.disk.locate w.cwd p.render = .ok at_ ∧ w.disk.has at_ = false ∧
      w.Performs [.makeDirectory at_] w' := by
  unfold makeDirectory
  rcases runIn_ask_cases p.render (fun disk cwd => disk.makeDirectory cwd p.render) w with
    ⟨e, hask⟩ | ⟨m, hmake, hask⟩
  · exact Or.inl ⟨e, runIn_bind_of_error hask⟩
  · obtain ⟨at_, rfl, hlocate, hhas⟩ := Disk.makeDirectory_eq_ok hmake
    exact Or.inr ⟨at_, _, runIn_bind_of_ok hask, hlocate, hhas, rfl, rfl, rfl, rfl⟩

/-- Making a directory at the place, where nothing is, brings the relation about. -/
def MakesAt (R : Host → Host → Prop) (place : Location) : Prop :=
  ∀ w w', w.disk.has place = false → w.Performs [.makeDirectory place] w' → R w w'

/-- Setting a file at the place, where no directory is, brings the relation about. -/
def WritesAt (R : Host → Host → Prop) (place : Location) : Prop :=
  ∀ w w' content, w.disk.get? place ≠ some .directory →
    w.Performs [.truncate place, .write place content] w' → R w w'

theorem leads_writeText (hR : IsFrame R) {parts : List String} (hparts : Path.Descends parts)
    (h : WritesAt R parts) (t : Text) : Leads R (writeText (Path.render ⟨.root, parts⟩) t) := by
  intro w
  rcases writeText_cases (Path.render ⟨.root, parts⟩) t w with
    ⟨e, hrun⟩ | ⟨at_, w', hrun, hlocate, hfile, hperforms⟩
  · rw [hrun]
    exact hR.quiet (.refl _)
  · obtain ⟨rfl, -⟩ := Disk.locate_render_eq_ok hparts hlocate
    rw [hrun]
    exact h w w' _ hfile hperforms

theorem leads_makeDirectory (hR : IsFrame R) {parts : List String} (hparts : Path.Descends parts)
    (h : MakesAt R parts) : Leads R (makeDirectory ⟨.root, parts⟩) := by
  intro w
  rcases makeDirectory_cases ⟨.root, parts⟩ w with
    ⟨e, hrun⟩ | ⟨at_, w', hrun, hlocate, hhas, hperforms⟩
  · rw [hrun]
    exact hR.quiet (.refl _)
  · obtain ⟨rfl, -⟩ := Disk.locate_render_eq_ok hparts hlocate
    rw [hrun]
    exact h w w' hhas hperforms

theorem leads_ensureDirectory (hR : IsFrame R) {parts : List String}
    (hparts : Path.Descends parts) (h : MakesAt R parts) :
    Leads R (ensureDirectory ⟨.root, parts⟩) := by
  refine .bind hR (.attempt (leads_makeDirectory hR hparts h)) fun result => ?_
  cases result with
  | ok => exact .pure hR _
  | error e =>
    refine .bind hR (.of_quiet hR (leads_isDirectory _)) fun there => ?_
    exact .ite (.pure hR _) (.throw hR _)

theorem leads_ensureDirectories (hR : IsFrame R) {parts : List String}
    (hparts : Path.Descends parts) (h : ∀ place, place <+: parts → MakesAt R place) (n : Nat) :
    Leads R (ensureDirectories n ⟨.root, parts⟩) := by
  have hhere := h parts List.prefix_rfl
  induction n generalizing parts with
  | zero => exact leads_ensureDirectory hR hparts hhere
  | succ n ih =>
    have habove := List.dropLast_prefix parts
    refine .bind hR (.attempt (leads_makeDirectory hR hparts hhere)) fun result => ?_
    cases result with
    | ok => exact .pure hR _
    | error e =>
      refine .ite (.bind hR ?_ fun _ => ?_) (.bind hR ?_ fun there => ?_)
      · exact ih (hparts.of_isPrefix habove) (fun place hplace => h place (hplace.trans habove))
          (h _ habove)
      · exact leads_ensureDirectory hR hparts hhere
      · exact .of_quiet hR (leads_isDirectory _)
      · exact .ite (.pure hR _) (.throw hR _)

/-- A directory that was made was not there, but the directories above it were. -/
theorem makeDirectory_eq_ok {parts : List String} (hparts : Path.Descends parts) {w w' : Host}
    (h : (makeDirectory ⟨.root, parts⟩).runIn w = (.ok (), w')) :
    w.disk.OpensTo parts ∧ w.disk.has parts = false ∧ w.Performs [.makeDirectory parts] w' := by
  rcases makeDirectory_cases ⟨.root, parts⟩ w with
    ⟨e, hrun⟩ | ⟨at_, w₁, hrun, hlocate, hhas, hperforms⟩
  · rw [hrun] at h
    cases h
  · rw [hrun] at h
    cases h
    obtain ⟨rfl, hopens⟩ := Disk.locate_render_eq_ok hparts hlocate
    exact ⟨hopens, hhas, hperforms⟩

theorem makeDirectory_eq_error {p : Path} {w w' : Host} {e : Failure}
    (h : (makeDirectory p).runIn w = (.error e, w')) : w' = w := by
  rcases makeDirectory_cases p w with ⟨e', hrun⟩ | ⟨at_, w₁, hrun, -⟩
  · rw [hrun] at h
    cases h
    rfl
  · rw [hrun] at h
    cases h

/-- What is found at a path lies there, below directories. -/
theorem lookup_eq_some {parts : List String} (hparts : Path.Descends parts) {entry : Entry}
    {w w' : Host} (h : (lookup ⟨.root, parts⟩).runIn w = (.ok (some entry), w')) :
    w' = w ∧ w.disk.OpensTo parts ∧ w.disk.get? parts = some entry := by
  unfold lookup at h
  rw [runIn_bind, runIn_get] at h
  dsimp only at h
  split at h
  · cases h
  · split at h
    · next at_ found hfind =>
      cases h
      obtain ⟨hlocate, hget⟩ := Disk.find?_eq_ok hfind
      obtain ⟨rfl, hopens⟩ := Disk.locate_render_eq_ok hparts hlocate
      exact ⟨rfl, hopens, hget⟩
    · split at h <;> cases h

theorem isDirectory_eq_ok {parts : List String} (hparts : Path.Descends parts) {w w' : Host}
    (h : (isDirectory ⟨.root, parts⟩).runIn w = (.ok true, w')) :
    w' = w ∧ w.disk.OpensTo parts ∧ w.disk.get? parts = some .directory := by
  obtain ⟨found, v, hlookup, hend⟩ := runIn_bind_eq_ok h
  have hfound : found = some .directory ∧ w' = v := by
    cases found with
    | none => cases hend
    | some entry =>
      cases entry with
      | directory => cases hend; exact ⟨rfl, rfl⟩
      | file content => cases hend
  obtain ⟨rfl, rfl⟩ := hfound
  exact lookup_eq_some hparts hlookup

theorem exists?_eq_ok_true {parts : List String} (hparts : Path.Descends parts) {w w' : Host}
    (h : (exists? ⟨.root, parts⟩).runIn w = (.ok true, w')) :
    w' = w ∧ w.disk.has parts = true := by
  obtain ⟨found, v, hlookup, hend⟩ := runIn_bind_eq_ok h
  cases found with
  | none => cases hend
  | some entry =>
    cases hend
    obtain ⟨hsame, -, hget⟩ := lookup_eq_some hparts hlookup
    exact ⟨hsame, Disk.has_of_get? hget⟩

/-- Where a directory cannot be ensured, nothing was made. -/
theorem ensureDirectory_eq_error {p : Path} {e : Failure} {w w' : Host}
    (h : (ensureDirectory p).runIn w = (.error e, w')) : w.Quiet w' := by
  have hattempt := runIn_attempt (makeDirectory p) w
  rcases hmake : (makeDirectory p).runIn w with ⟨made, w₁⟩
  rw [hmake] at hattempt
  unfold ensureDirectory at h
  rw [runIn_bind_of_ok hattempt] at h
  cases made with
  | ok => cases h
  | error e =>
    cases makeDirectory_eq_error hmake
    refine Leads.of_run ?_ h
    exact .bind isFrame_quiet (leads_isDirectory p) fun there =>
      .ite (.pure isFrame_quiet _) (.throw isFrame_quiet _)

/-- A directory that is ensured is there. It was there before, or it is the only change. -/
theorem ensureDirectory_eq_ok {parts : List String} (hparts : Path.Descends parts) {w w' : Host}
    (h : (ensureDirectory ⟨.root, parts⟩).runIn w = (.ok (), w')) :
    w.disk.OpensTo parts ∧ w'.disk.get? parts = some .directory ∧
      (w' = w ∨ w.disk.has parts = false ∧ w.Performs [.makeDirectory parts] w') := by
  obtain ⟨result, v, hattempt, hend⟩ := runIn_bind_eq_ok h
  rw [runIn_attempt] at hattempt
  rcases hmake : (makeDirectory ⟨.root, parts⟩).runIn w with ⟨first, w₁⟩
  rw [hmake] at hattempt
  cases hattempt
  cases first with
  | error e =>
    cases makeDirectory_eq_error hmake
    obtain ⟨there, v, hthere, hend⟩ := runIn_bind_eq_ok hend
    cases there with
    | false => cases hend
    | true =>
      cases hend
      obtain ⟨rfl, hopens, hdir⟩ := isDirectory_eq_ok hparts hthere
      exact ⟨hopens, hdir, Or.inl rfl⟩
  | ok =>
    cases hend
    obtain ⟨hopens, hhas, hperforms⟩ := makeDirectory_eq_ok hparts hmake
    have hroot : parts ≠ [] := by
      rintro rfl
      cases hhas
    refine ⟨hopens, ?_, Or.inr ⟨hhas, hperforms⟩⟩
    rw [hperforms.disk]
    exact Disk.get?_set_self _ hroot

end Action

/-! ## 5. Every instant -/

namespace Host

open ChainGuard.Action (IsFrame MakesAt WritesAt)

/-- No change touched a place of the given kind. -/
def Spares (keep : Location → Prop) (w w' : Host) : Prop :=
  ∃ changes, w.Performs changes w' ∧ ∀ m ∈ changes, ∀ at_, keep at_ → m.Spares at_

/-- No change touched a place where something was. -/
def Grows (w w' : Host) : Prop :=
  w.Spares (fun at_ => w.disk.has at_ = true) w'

/-- The disk had the property at every instant, from the first host to the last. -/
def Always (P : Disk → Prop) (w w' : Host) : Prop :=
  ∃ changes, w.Performs changes w' ∧
    ∀ before, before <+: changes → P (Mutation.applyAll w.disk before)

section

variable {keep : Location → Prop} {P : Disk → Prop} {w v w' : Host}

theorem Spares.mono {less : Location → Prop} (h : w.Spares keep w')
    (hless : ∀ at_, less at_ → keep at_) : w.Spares less w' := by
  obtain ⟨changes, hperforms, hspares⟩ := h
  exact ⟨changes, hperforms, fun m hm at_ hat => hspares m hm at_ (hless at_ hat)⟩

theorem Quiet.spares (h : w.Quiet w') (keep : Location → Prop) : w.Spares keep w' :=
  ⟨[], h.performs, fun _ hm => nomatch hm⟩

theorem Spares.trans (h : w.Spares keep v) (h' : v.Spares keep w') : w.Spares keep w' := by
  obtain ⟨first, hfirst, hsparesFirst⟩ := h
  obtain ⟨second, hsecond, hsparesSecond⟩ := h'
  refine ⟨first ++ second, hfirst.append hsecond, fun m hm => ?_⟩
  rcases List.mem_append.mp hm with hm | hm
  · exact hsparesFirst m hm
  · exact hsparesSecond m hm

theorem Spares.cwd (h : w.Spares keep w') : w'.cwd = w.cwd := by
  obtain ⟨changes, hperforms, -⟩ := h
  exact hperforms.cwd

theorem Spares.clock (h : w.Spares keep w') : w'.clock = w.clock := by
  obtain ⟨changes, hperforms, -⟩ := h
  exact hperforms.clock

theorem Spares.distinct (h : w.Spares keep w') (hw : w.disk.Distinct) : w'.disk.Distinct := by
  obtain ⟨changes, hperforms, -⟩ := h
  rw [hperforms.disk]
  exact Mutation.distinct_applyAll hw changes

theorem Spares.get? (h : w.Spares keep w') {at_ : Location} (hat : keep at_) :
    w'.disk.get? at_ = w.disk.get? at_ := by
  obtain ⟨changes, hperforms, hspares⟩ := h
  rw [hperforms.disk]
  exact Mutation.get?_applyAll (fun m hm => hspares m hm at_ hat) _

theorem isFrame_spares (keep : Location → Prop) : IsFrame (Spares keep) where
  quiet h := h.spares keep
  trans := Spares.trans

theorem makesAt_spares {place : Location} (h : ¬keep place) : MakesAt (Spares keep) place := by
  intro w w' hhas hperforms
  refine ⟨_, hperforms, fun m hm at_ hat => ?_⟩
  cases List.mem_singleton.mp hm
  exact Mutation.spares_makeDirectory fun heq => h (heq ▸ hat)

theorem Performs.spares_write {place : Location} {content : Bytes}
    (h : w.Performs [.truncate place, .write place content] w') (hplace : ¬keep place) :
    w.Spares keep w' := by
  refine ⟨_, h, fun m hm at_ hat => ?_⟩
  have hne : at_ ≠ place := fun heq => hplace (heq ▸ hat)
  rcases List.mem_cons.mp hm with rfl | hm
  · exact Mutation.spares_truncate hne
  · cases List.mem_singleton.mp hm
    exact Mutation.spares_write hne content

/-- Writing a file in a directory of a tree gives a tree. -/
theorem Performs.isTree_write {at_ : Location} {content : Bytes}
    (h : w.Performs [.truncate at_, .write at_ content] w') (hw : w.disk.IsTree)
    (hparent : w.disk.get? at_.dropLast = some .directory)
    (hfile : w.disk.get? at_ ≠ some .directory) : w'.disk.IsTree := by
  have hkept : ∀ other, other ≠ at_ → w'.disk.get? other = w.disk.get? other := by
    intro other hne
    rw [h.disk]
    show ((w.disk.set at_ _).set at_ _).get? other = _
    rw [Disk.get?_set_of_ne _ hne, Disk.get?_set_of_ne _ hne]
  have hkeeps : w.disk.KeepsDirectories w'.disk := by
    intro other hdir
    rw [hkept other fun heq => hfile (heq ▸ hdir), hdir]
  intro other hhas
  refine hkeeps _ ?_
  by_cases heq : other = at_
  · rw [heq, hparent]
  · rw [Disk.has, hkept other heq] at hhas
    exact hw other hhas

theorem writesAt_spares {place : Location} (h : ¬keep place) : WritesAt (Spares keep) place :=
  fun _ _ _ _ hperforms => hperforms.spares_write h

theorem isFrame_grows : IsFrame Grows where
  quiet h := h.spares _
  trans hab hbc := by
    refine Spares.trans hab (hbc.mono fun at_ hat => ?_)
    rwa [Disk.has, hab.get? hat]

theorem makesAt_grows (place : Location) : MakesAt Grows place := by
  intro w w' hhas
  refine makesAt_spares (fun hplace => ?_) w w' hhas
  rw [hhas] at hplace
  cases hplace

theorem Always.mono {Q : Disk → Prop} (h : w.Always P w') (hPQ : ∀ disk, P disk → Q disk) :
    w.Always Q w' := by
  obtain ⟨changes, hperforms, hsofar⟩ := h
  exact ⟨changes, hperforms, fun before hbefore => hPQ _ (hsofar before hbefore)⟩

theorem Always.trans (h : w.Always P v) (h' : v.Always P w') : w.Always P w' := by
  obtain ⟨first, hfirst, hsofar⟩ := h
  obtain ⟨second, hsecond, hthen⟩ := h'
  refine ⟨first ++ second, hfirst.append hsecond, fun before hbefore => ?_⟩
  rcases List.prefix_or_prefix_of_prefix hbefore (List.prefix_append first second) with
    hbefore | ⟨rest, rfl⟩
  · exact hsofar before hbefore
  · rw [Mutation.applyAll_append, ← hfirst.disk]
    exact hthen rest ((List.prefix_append_right_inj first).mp hbefore)

/-- What depends only on places that are spared holds at every instant. -/
theorem Spares.always (h : w.Spares keep w')
    (hP : ∀ disk : Disk, (∀ at_, keep at_ → disk.get? at_ = w.disk.get? at_) → P disk) :
    w.Always P w' := by
  obtain ⟨changes, hperforms, hspares⟩ := h
  refine ⟨changes, hperforms, fun before hbefore => hP _ fun at_ hat => ?_⟩
  exact Mutation.get?_applyAll (fun m hm => hspares m (hbefore.subset hm) at_ hat) _

end

end Host

end ChainGuard
