import ChainGuard.Proofs.Compiler
import ChainGuard.Proofs.Name
import ChainGuard.Proofs.Text.Integer

/-!
# How actions fail

An action ends well or fails. Looking at the disk and writing to it fail for reasons that lie in the
name or on the disk, so each of these actions has one statement that says what holds where it ends
well and what it can fail with.

1. `Disk.TooLong`: names beyond the limits of a disk. `Disk.locate_render_eq_error`: the reasons for
   which a path cannot be followed.
2. `Action.Ends`: what holds where an action ends well, and what it can fail with otherwise.
   `Host.Follows`: the hosts that come after one whose disk does not change.
3. `ends_lookup`, `ends_ensureDirectories`, `ends_writeText`: looking, making directories, writing.
4. `Action.isFree_freeName`: of enough names one is free. `ends_withDirectory`: running an action in
   a directory of its own.
-/

namespace ChainGuard

/-! ## 1. Names that cannot be followed -/

namespace Disk

variable {disk : Disk}

/-- The name, or one of its parts, is longer than a disk allows. -/
def TooLong (name : String) : Prop :=
  maxNameBytes < name.utf8ByteSize ∨ ∃ s ∈ steps name, maxPartBytes < s.utf8ByteSize

/-- The fault says that the place cannot be reached: something above it is missing or a file. -/
inductive Blocked (disk : Disk) (place : Location) : DiskFault → Prop
  | missing {above : Location} : above <+: place → above ≠ place → disk.get? above = none →
      Blocked disk place .noSuchFile
  | file {above : Location} {content : Bytes} : above <+: place → above ≠ place →
      disk.get? above = some (.file content) → Blocked disk place .notADirectory

theorem OpensTo.holds {place : Location} (h : disk.OpensTo place)
    (hget : disk.get? place = some .directory) : disk.Holds place := by
  intro above habove
  by_cases heq : above = place
  · rw [heq, hget]
  · exact h above habove heq

theorem Holds.opensTo_of_dropLast {place : Location} (h : disk.Holds place.dropLast) :
    disk.OpensTo place := by
  rcases List.eq_nil_or_concat place with rfl | ⟨front, last, rfl⟩
  · exact fun above habove hne => absurd (List.prefix_nil.mp habove) hne
  · rw [List.concat_eq_append, List.dropLast_concat] at *
    exact h.opensTo last

theorem ne_of_isPrefix_dropLast {at_ t : Location} (h : at_ <+: t.dropLast) (hne : t ≠ []) :
    at_ ≠ t := by
  rintro rfl
  have hlength := h.length_le
  have hpos := List.length_pos_of_ne_nil hne
  rw [List.length_dropLast] at hlength
  omega

theorem OpensTo.holds_dropLast {place : Location} (h : disk.OpensTo place) (hne : place ≠ []) :
    disk.Holds place.dropLast :=
  fun above habove =>
    h above (habove.trans (List.dropLast_prefix place)) (ne_of_isPrefix_dropLast habove hne)

theorem OpensTo.not_blocked {place : Location} {fault : DiskFault} (h : disk.OpensTo place) :
    ¬disk.Blocked place fault := by
  rintro (⟨habove, hne, hget⟩ | ⟨habove, hne, hget⟩)
  · exact nomatch (h _ habove hne).symm.trans hget
  · exact nomatch (h _ habove hne).symm.trans hget

/-- Nothing lies at a free place or below it. -/
theorem has_of_isFree {place at_ : Location} (h : disk.isFree place = true)
    (hunder : place <+: at_) (hne : at_ ≠ []) : disk.has at_ = false := by
  rw [Bool.eq_false_iff]
  intro hhas
  obtain ⟨entry, hentry, rfl⟩ := List.mem_map.mp (mem_places_of_has hhas hne)
  have hfree := List.all_eq_true.mp h entry hentry
  rw [List.isPrefixOf_iff_prefix.mpr hunder] at hfree
  cases hfree

theorem locate_eq_error {cwd : Location} {name : String} {fault : DiskFault}
    (h : disk.locate cwd name = .error fault) :
    fault.isAbsence = true ∨ fault = .nameTooLong ∧ TooLong name := by
  unfold locate locateSteps at h
  split at h
  · cases h
    exact .inl rfl
  · split at h
    · next hlong =>
      cases h
      exact .inr ⟨rfl, .inl hlong⟩
    · exact (walk_eq_error h).imp_right fun ⟨hfault, hlong⟩ => ⟨hfault, .inr hlong⟩

/-- Nothing is found for a name that leads nowhere, and for one that is too long. -/
theorem find?_eq_error {cwd : Location} {name : String} {fault : DiskFault}
    (h : disk.find? cwd name = .error fault) :
    fault.isAbsence = true ∨ fault = .nameTooLong ∧ TooLong name := by
  unfold find? at h
  cases hlocate : disk.locate cwd name with
  | error other =>
    rw [hlocate] at h
    cases h
    exact locate_eq_error hlocate
  | ok at_ =>
    rw [hlocate] at h
    dsimp only [bind, Except.bind] at h
    split at h
    · cases h
      exact .inl rfl
    · split at h <;> cases h
      exact .inl rfl
    · cases h

/-- Parts that lead down are not followed where the place cannot be reached, or where one of them is
too long. -/
theorem blocked_of_walk_eq_error {here : Location} {parts : List String} {fault : DiskFault}
    (hparts : Path.Descends parts) (h : disk.walk here parts = .error fault) :
    disk.Blocked (here ++ parts) fault ∨
      fault = .nameTooLong ∧ ∃ s ∈ parts, maxPartBytes < s.utf8ByteSize := by
  induction parts generalizing here with
  | nil => cases h
  | cons part rest ih =>
    obtain ⟨hpart, hup⟩ := hparts part List.mem_cons_self
    have hne : here ≠ here ++ part :: rest := by simp
    unfold walk at h
    split at h
    · next hget =>
      cases h
      exact .inl (.missing (List.prefix_append _ _) hne hget)
    · next hget =>
      cases h
      exact .inl (.file (List.prefix_append _ _) hne hget)
    · rw [if_neg hpart.ne_dot, if_neg hup] at h
      split at h
      · next hlong =>
        cases h
        exact .inr ⟨rfl, part, List.mem_cons_self, hlong⟩
      · have hrest := ih (fun s hs => hparts s (List.mem_cons_of_mem part hs)) h
        rw [List.append_assoc, List.singleton_append] at hrest
        exact hrest.imp_right fun ⟨hfault, s, hs, hlong⟩ =>
          ⟨hfault, s, List.mem_cons_of_mem part hs, hlong⟩

/-- A path that leads down is not followed where its place cannot be reached, or where its text is
too long. -/
theorem locate_render_eq_error {cwd : Location} {parts : List String} {fault : DiskFault}
    (hparts : Path.Descends parts)
    (h : disk.locate cwd (Path.render ⟨.root, parts⟩) = .error fault) :
    disk.Blocked parts fault ∨ fault = .nameTooLong ∧ TooLong (Path.render ⟨.root, parts⟩) := by
  rw [locate_render disk cwd hparts] at h
  split at h
  · next hlong =>
    cases h
    exact .inr ⟨rfl, .inl hlong⟩
  · refine (blocked_of_walk_eq_error hparts h).imp_right fun ⟨hfault, hlong⟩ => ⟨hfault, .inr ?_⟩
    rwa [steps_render hparts]

end Disk

/-! ## 2. Ends of actions -/

namespace Host

/-- How the `i`-th launch from here on ends. -/
def replyTo (w : Host) (i : Nat) (l : Launch) : Reply :=
  match w.replies[i]? with
  | some next => next l
  | none => .finished [] [] 0

/-- From the first host to the second the `i`-th launch was made, and it ended like this. -/
def Answered (w v : Host) (i : Nat) (reply : Reply) : Prop :=
  ∃ l, v.launches[w.launches.length + i]? = some l ∧ w.replyTo i l = reply

/-- From the first host to the second so many launches were made. The stack has the same room. -/
def Launches (w v : Host) (count : Nat) : Prop :=
  v.replies = w.replies.drop count ∧ v.spareLevels = w.spareLevels ∧
    ∃ made, made.length = count ∧ v.launches = w.launches ++ made

/-- From the first host to the second some launches were made. -/
def Proceeds (w v : Host) : Prop :=
  ∃ count, w.Launches v count

/-- The disk is the same, and launches may have been made. -/
structure Follows (w v : Host) : Prop extends SameDisk w v where
  launches : w.Proceeds v

variable {a b c : Host}

theorem Launches.refl (w : Host) : w.Launches w 0 :=
  ⟨rfl, rfl, [], rfl, (List.append_nil _).symm⟩

theorem Launches.levels {count : Nat} (h : a.Launches b count) : b.levels = a.levels :=
  congrArg (· + 2) h.2.1

theorem Launches.trans {m n : Nat} (hab : a.Launches b m) (hbc : b.Launches c n) :
    a.Launches c (m + n) := by
  obtain ⟨hreplies, hroom, made, hlength, hmade⟩ := hab
  obtain ⟨hlater, hsame, more, hcount, hmore⟩ := hbc
  refine ⟨?_, hsame.trans hroom, made ++ more, ?_, ?_⟩
  · rw [hlater, hreplies, List.drop_drop]
  · rw [List.length_append, hlength, hcount]
  · rw [hmore, hmade, List.append_assoc]

/-- A launch from the later host on is one from the earlier host on. -/
theorem Launches.answered {n i : Nat} {reply : Reply} (hab : a.Launches b n)
    (h : b.Answered c i reply) : a.Answered c (n + i) reply := by
  obtain ⟨hreplies, -, made, hlength, hmade⟩ := hab
  obtain ⟨l, hl, hreply⟩ := h
  refine ⟨l, ?_, ?_⟩
  · rw [hmade, List.length_append, hlength, Nat.add_assoc] at hl
    exact hl
  · rw [← hreply, replyTo, replyTo, hreplies, List.getElem?_drop]

theorem Proceeds.refl (w : Host) : w.Proceeds w :=
  ⟨0, .refl w⟩

theorem Proceeds.trans (hab : a.Proceeds b) (hbc : b.Proceeds c) : a.Proceeds c := by
  obtain ⟨m, hm⟩ := hab
  obtain ⟨n, hn⟩ := hbc
  exact ⟨m + n, hm.trans hn⟩

/-- Changing the disk launches nothing. -/
theorem proceeds_after (w : Host) (changes : List Mutation) : w.Proceeds (w.after changes) :=
  .refl w

/-- A launch that was made stays made. -/
theorem Answered.mono {i : Nat} {reply : Reply} (h : a.Answered b i reply)
    (hbc : b.Proceeds c) : a.Answered c i reply := by
  obtain ⟨l, hl, hreply⟩ := h
  obtain ⟨-, -, -, made, -, hmade⟩ := hbc
  refine ⟨l, ?_, hreply⟩
  rw [hmade, List.getElem?_append_left (List.getElem?_eq_some_iff.mp hl).1]
  exact hl

theorem Follows.refl (w : Host) : w.Follows w :=
  ⟨⟨rfl, rfl⟩, .refl w⟩

theorem Follows.of_launches {n : Nat} (hsame : a.SameDisk b) (h : a.Launches b n) : a.Follows b :=
  ⟨hsame, n, h⟩

theorem Follows.trans (hab : a.Follows b) (hbc : b.Follows c) : a.Follows c :=
  ⟨hab.toSameDisk.trans hbc.toSameDisk, hab.launches.trans hbc.launches⟩

end Host

namespace Action

variable {α β : Type}

/-- The action ends well, with a result and a host as given, or it fails, with a failure and a host
as given. -/
def Ends (good : α → Host → Prop) (bad : Failure → Host → Prop) (x : Action α) (w : Host) : Prop :=
  match x.runIn w with
  | (.ok a, v) => good a v
  | (.error e, v) => bad e v

namespace Ends

variable {good : α → Host → Prop} {next : β → Host → Prop} {bad : Failure → Host → Prop}
  {x : Action α}
  {w v : Host} {a : α} {e : Failure}

theorem of_ok (h : x.runIn w = (.ok a, v)) (ha : good a v) : Ends good bad x w := by
  rw [Ends, h]
  exact ha

theorem of_error (h : x.runIn w = (.error e, v)) (he : bad e v) : Ends good bad x w := by
  rw [Ends, h]
  exact he

theorem of_runIn (hok : ∀ a v, x.runIn w = (.ok a, v) → good a v)
    (herror : ∀ e v, x.runIn w = (.error e, v) → bad e v) : Ends good bad x w := by
  rcases hrun : x.runIn w with ⟨result, v⟩
  cases result with
  | ok a => exact of_ok hrun (hok a v hrun)
  | error e => exact of_error hrun (herror e v hrun)

theorem ok (h : Ends good bad x w) (hrun : x.runIn w = (.ok a, v)) : good a v := by
  rwa [Ends, hrun] at h

theorem error (h : Ends good bad x w) (hrun : x.runIn w = (.error e, v)) : bad e v := by
  rwa [Ends, hrun] at h

theorem pure (h : good a w) : Ends good bad (pure a) w := h

theorem throw (h : bad e w) : Ends good bad (throw e) w := h

theorem lift {r : Except Failure α} (hok : ∀ a, r = .ok a → good a w)
    (herror : ∀ e, r = .error e → bad e w) : Ends good bad (Action.lift r) w := by
  cases r with
  | ok a => exact hok a rfl
  | error e => exact herror e rfl

theorem mono {more : α → Host → Prop} (h : Ends good bad x w)
    (hmore : ∀ a v, x.runIn w = (.ok a, v) → good a v → more a v) : Ends more bad x w :=
  of_runIn (fun a v hrun => hmore a v hrun (h.ok hrun)) fun _ _ hrun => h.error hrun

theorem weaken {worse : Failure → Host → Prop} (h : Ends good bad x w)
    (hworse : ∀ e v, bad e v → worse e v) : Ends good worse x w :=
  of_runIn (fun _ _ hrun => h.ok hrun) fun _ _ hrun => hworse _ _ (h.error hrun)

/-- One step after the other. The second step starts where the first one ended. -/
theorem bind {f : α → Action β} (hx : Ends good bad x w)
    (hf : ∀ a v, x.runIn w = (.ok a, v) → good a v → Ends next bad (f a) v) :
    Ends next bad (x >>= f) w := by
  rcases hrun : x.runIn w with ⟨result, v⟩
  unfold Ends
  rw [runIn_bind, hrun]
  cases result with
  | ok a => exact hf a v hrun (hx.ok hrun)
  | error e => exact hx.error hrun

theorem ite {c : Prop} [Decidable c] {x y : Action α} (hx : c → Ends good bad x w)
    (hy : ¬c → Ends good bad y w) : Ends good bad (if c then x else y) w := by
  split
  · next h => exact hx h
  · next h => exact hy h

end Ends

/-- Keeping those for which a test holds, where every test keeps an invariant. -/
theorem ends_filterM {I : Host → Prop} {bad : Failure → Host → Prop} {p : α → Action Bool}
    {as : List α}
    (hp : ∀ a ∈ as, ∀ v, I v → Ends (fun _ u => I u) bad (p a) v) {w : Host} (hw : I w) :
    Ends (fun out u => I u ∧ ∀ a ∈ out, a ∈ as) bad (as.filterM p) w := by
  have haux : ∀ (rest kept : List α) (v : Host), (∀ a ∈ rest, a ∈ as) → (∀ a ∈ kept, a ∈ as) → I v →
      Ends (fun out u => I u ∧ ∀ a ∈ out, a ∈ as) bad (rest.filterAuxM p kept) v := by
    intro rest
    induction rest with
    | nil => exact fun kept v _ hkept hv => .pure ⟨hv, hkept⟩
    | cons first rest ih =>
      intro kept v hrest hkept hv
      have hfirst := hrest first List.mem_cons_self
      refine .bind (hp first hfirst v hv) fun keep u _ hu => ?_
      refine ih _ u (fun a ha => hrest a (List.mem_cons_of_mem _ ha)) (fun a ha => ?_) hu
      cases keep with
      | false => exact hkept a ha
      | true =>
        rcases List.mem_cons.mp ha with rfl | ha
        · exact hfirst
        · exact hkept a ha
  refine .bind (haux as [] w (fun _ ha => ha) (fun _ ha => nomatch ha) hw) fun out u _ hout => ?_
  exact .pure ⟨hout.1, fun a ha => hout.2 a (List.mem_reverse.mp ha)⟩

/-! ## 3. Looking and writing -/

section

variable {bad : Failure → Host → Prop}

theorem ends_resolve (p : Path) {w : Host} (hnull : ¬Path.NoNull p.parts → bad .nullInName w) :
    Ends (fun place v => place = Path.resolve ⟨.root, w.cwd⟩ p ∧ v = w) bad (resolve p) w := by
  refine .of_runIn (fun place v hrun => resolve_eq_ok hrun) fun e v hrun => ?_
  unfold resolve at hrun
  split at hrun
  · next hany =>
    cases hrun
    obtain ⟨s, hs, hmem⟩ := List.any_eq_true.mp hany
    exact hnull fun hparts => hparts s hs (List.contains_iff_mem.mp hmem)
  · cases hrun

theorem ends_note (level : Level) (source text : String) (w : Host) :
    Ends (fun _ v => w.SameDisk v ∧ w.Launches v 0) bad (note level source text) w :=
  ⟨⟨rfl, rfl⟩, .refl w⟩

theorem ends_readJson (t : Text) (w : Host) :
    Ends (fun result v => result = JsonValue.read w.levels t ∧ v = w) bad (readJson t) w :=
  ⟨rfl, rfl⟩

theorem ends_parse (name : String) (text : Text) (w : Host) :
    Ends (fun _ v => w.Follows v) bad (parse name text) w :=
  ⟨⟨rfl, rfl⟩, .refl w⟩

/-- The actions below may fail because this name is too long, if it is. -/
def Refuses (bad : Failure → Host → Prop) (name : String) : Prop :=
  Disk.TooLong name → ∀ v, bad (.disk { fault := .nameTooLong, name }) v

/-- Looking at a path fails only if the path is too long, and changes nothing. -/
theorem ends_lookup {p : Path} (hlong : Refuses bad p.render) (w : Host) :
    Ends (fun _ v => v = w) bad (lookup p) w := by
  have hhost := runIn_lookup p w
  refine .of_runIn (fun a v hrun => by rwa [hrun] at hhost) fun e v hrun => ?_
  unfold lookup at hrun
  rw [runIn_bind_of_ok (runIn_get w)] at hrun
  dsimp only at hrun
  split at hrun
  · cases hrun
  · split at hrun
    · cases hrun
    · next fault hfind =>
      split at hrun
      · cases hrun
      · next habsence =>
        cases hrun
        obtain ⟨rfl, htoo⟩ := (Disk.find?_eq_error hfind).resolve_left habsence
        exact hlong htoo w

theorem ends_exists? {p : Path} (hlong : Refuses bad p.render) (w : Host) :
    Ends (fun _ v => v = w) bad (exists? p) w :=
  .bind (ends_lookup hlong w) fun _ _ _ hv => .pure hv

theorem ends_isDirectory {p : Path} (hlong : Refuses bad p.render) (w : Host) :
    Ends (fun _ v => v = w) bad (isDirectory p) w :=
  .bind (ends_lookup hlong w) fun _ _ _ hv => .pure hv

theorem ends_isFile {p : Path} (hlong : Refuses bad p.render) (w : Host) :
    Ends (fun _ v => v = w) bad (isFile p) w :=
  .bind (ends_lookup hlong w) fun _ _ _ hv => .pure hv

end

/-- A path that was found to be reached and to be a directory is taken for one. -/
theorem runIn_isDirectory_of_locate {p : Path} {at_ : Location} {w : Host}
    (hnull : p.render.toList.contains '\x00' = false)
    (hlocate : w.disk.locate w.cwd p.render = .ok at_) (hget : w.disk.get? at_ = some .directory) :
    (isDirectory p).runIn w = (.ok true, w) := by
  have hlookup : (lookup p).runIn w = (.ok (some .directory), w) := by
    unfold lookup
    rw [runIn_bind_of_ok (runIn_get w)]
    dsimp only
    rw [hnull, if_neg Bool.false_ne_true, Disk.find?_of_locate hlocate hget (.inl rfl)]
    rfl
  exact runIn_bind_of_ok hlookup

/-- A path that is found to be a file can be named, and there is a file. -/
theorem isFile_eq_ok {parts : List String} (hparts : Path.Descends parts) {w v : Host}
    (h : (isFile ⟨.root, parts⟩).runIn w = (.ok true, v)) :
    Path.NoNull parts ∧ w.disk.OpensTo parts ∧
      ∃ content, w.disk.get? parts = some (.file content) := by
  obtain ⟨found, u, hlookup, hend⟩ := runIn_bind_eq_ok h
  have hfound : ∃ content, found = some (.file content) := by
    cases found with
    | none => cases hend
    | some entry =>
      cases entry with
      | directory => cases hend
      | file content => exact ⟨content, rfl⟩
  obtain ⟨content, rfl⟩ := hfound
  obtain ⟨-, hopens, hget⟩ := lookup_eq_some hparts hlookup
  refine ⟨fun s hs hmem => ?_, hopens, content, hget⟩
  have hnull := List.contains_iff_mem.mpr
    ((Path.mem_toList_render (by decide)).mpr ⟨s, hs, hmem⟩)
  unfold lookup at hlookup
  rw [runIn_bind_of_ok (runIn_get w)] at hlookup
  dsimp only at hlookup
  rw [hnull, if_pos rfl] at hlookup
  cases hlookup

theorem runIn_ask_of_error {name : String} {question : Disk → Location → Except DiskFault α}
    {fault : DiskFault} {w : Host} (hnull : name.toList.contains '\x00' = false)
    (h : question w.disk w.cwd = .error fault) :
    (ask name question).runIn w = (.error (.disk { fault, name }), w) := by
  rw [runIn_ask, hnull, if_neg Bool.false_ne_true, h]
  rfl

section

variable {parts : List String} (hparts : Path.Descends parts) (hnull : Path.NoNull parts)
include hparts hnull

/-- Making a directory succeeds where nothing is, and fails where something is or where the path
cannot be followed. -/
theorem makeDirectory_outcomes (w : Host) :
    (w.disk.OpensTo parts ∧ w.disk.has parts = false ∧
      (makeDirectory ⟨.root, parts⟩).runIn w = (.ok (), w.after [.makeDirectory parts])) ∨
    ∃ fault, (makeDirectory ⟨.root, parts⟩).runIn w =
        (.error (.disk { fault, name := Path.render ⟨.root, parts⟩ }), w) ∧
      (fault = .alreadyThere ∧ w.disk.OpensTo parts ∧ w.disk.has parts = true ∧
          w.disk.locate w.cwd (Path.render ⟨.root, parts⟩) = .ok parts ∨
        w.disk.Blocked parts fault ∨
        fault = .nameTooLong ∧ Disk.TooLong (Path.render ⟨.root, parts⟩)) := by
  unfold makeDirectory
  cases hlocate : w.disk.locate w.cwd (Path.render ⟨.root, parts⟩) with
  | error fault =>
    have hmake : w.disk.makeDirectory w.cwd (Path.render ⟨.root, parts⟩) = .error fault := by
      rw [Disk.makeDirectory, hlocate]
      rfl
    exact .inr ⟨fault, runIn_bind_of_error (runIn_ask_of_error hnull.contains_render hmake),
      .inr (Disk.locate_render_eq_error hparts hlocate)⟩
  | ok at_ =>
    obtain ⟨rfl, hopens⟩ := Disk.locate_render_eq_ok hparts hlocate
    cases hhas : w.disk.has at_ with
    | true =>
      have hmake : w.disk.makeDirectory w.cwd (Path.render ⟨.root, at_⟩) =
          .error .alreadyThere := by
        rw [Disk.makeDirectory, hlocate]
        simp only [bind, Except.bind, hhas, if_true]
      exact .inr ⟨_, runIn_bind_of_error (runIn_ask_of_error hnull.contains_render hmake),
        .inl ⟨rfl, hopens, rfl, rfl⟩⟩
    | false =>
      have hmake : w.disk.makeDirectory w.cwd (Path.render ⟨.root, at_⟩) =
          .ok (.makeDirectory at_) := by
        rw [Disk.makeDirectory, hlocate]
        simp only [bind, Except.bind, hhas, Bool.false_eq_true, if_false]
        rfl
      refine .inl ⟨hopens, rfl, ?_⟩
      rw [runIn_bind_of_ok (runIn_ask_of_ok hnull.contains_render hmake), runIn_perform]

variable {bad : Failure → Host → Prop} (hlong : Refuses bad (Path.render ⟨.root, parts⟩))
include hlong

omit hnull in
theorem ends_unlessDirectory {w : Host} {e : Failure} (he : ∀ v, bad e v) :
    Ends (fun _ v => v = w ∧ w.disk.OpensTo parts ∧ w.disk.get? parts = some .directory) bad
      (do if ← isDirectory ⟨.root, parts⟩ then pure () else throw e) w := by
  refine .bind (ends_isDirectory hlong w) fun there v hrun _ => .ite (fun hthere => ?_) fun _ =>
    .throw (he v)
  rw [hthere] at hrun
  exact .pure (isDirectory_eq_ok hparts hrun)

theorem ends_ensureDirectory {w : Host} (hopens : w.disk.OpensTo parts)
    (hfile : ∀ content, w.disk.get? parts ≠ some (.file content)) :
    Ends (fun _ v => v = w ∧ w.disk.get? parts = some .directory ∨
      v = w.after [.makeDirectory parts] ∧ w.disk.has parts = false) bad
      (ensureDirectory ⟨.root, parts⟩) w := by
  have hattempt := runIn_attempt (makeDirectory ⟨.root, parts⟩) w
  rcases makeDirectory_outcomes hparts hnull w with
    ⟨-, hhas, hmake⟩ | ⟨fault, hmake, ⟨rfl, -, hhas, hlocate⟩ | hblocked | ⟨rfl, htoo⟩⟩
  · rw [hmake] at hattempt
    exact .of_ok (runIn_bind_of_ok hattempt) (.inr ⟨rfl, hhas⟩)
  · rw [hmake] at hattempt
    have hget : w.disk.get? parts = some .directory := by
      obtain ⟨entry, hentry⟩ := Option.isSome_iff_exists.mp hhas
      cases entry with
      | directory => exact hentry
      | file content => exact absurd hentry (hfile content)
    have hthere := runIn_isDirectory_of_locate hnull.contains_render hlocate hget
    exact .of_ok ((runIn_bind_of_ok hattempt).trans (runIn_bind_of_ok hthere)) (.inl ⟨rfl, hget⟩)
  · exact absurd hblocked hopens.not_blocked
  · rw [hmake] at hattempt
    unfold ensureDirectory
    rw [Ends, runIn_bind_of_ok hattempt]
    exact (ends_unlessDirectory hparts hlong (hlong htoo)).mono fun _ _ _ h => .inl ⟨h.1, h.2.2⟩

end

/-- Where no parent is missing, it is enough to ensure the one directory. -/
theorem runIn_ensureDirectories_succ {n : Nat} {p : Path} {w : Host}
    (h : ∀ e v, (makeDirectory p).runIn w = (.error e, v) → isMissingParent e = false) :
    (ensureDirectories (n + 1) p).runIn w = (ensureDirectory p).runIn w := by
  have hattempt := runIn_attempt (makeDirectory p) w
  rcases hrun : (makeDirectory p).runIn w with ⟨result, v⟩
  rw [hrun] at hattempt
  unfold ensureDirectories ensureDirectory
  rw [runIn_bind_of_ok hattempt, runIn_bind_of_ok hattempt]
  cases result with
  | ok => rfl
  | error e =>
    dsimp only
    rw [h e v hrun, Bool.false_and, if_neg Bool.false_ne_true]

theorem runIn_ensureDirectories_of_missing {n : Nat} {parts : List String} {w : Host}
    {name : String} (hne : parts ≠ []) (h : (makeDirectory ⟨.root, parts⟩).runIn w =
      (.error (.disk { fault := .noSuchFile, name }), w)) :
    (ensureDirectories (n + 1) ⟨.root, parts⟩).runIn w =
      Action.runIn (do
        ensureDirectories n ⟨.root, parts.dropLast⟩
        ensureDirectory ⟨.root, parts⟩) w := by
  have hattempt := runIn_attempt (makeDirectory ⟨.root, parts⟩) w
  rw [h] at hattempt
  have hparent : (Path.parent ⟨.root, parts⟩ != ⟨.root, parts⟩) = true := by
    rw [bne_iff_ne]
    intro heq
    have hlength := congrArg (fun p => p.parts.length) heq
    have hpos := List.length_pos_of_ne_nil hne
    simp only [Path.parent, List.length_dropLast] at hlength
    omega
  rw [ensureDirectories, runIn_bind_of_ok hattempt]
  dsimp only
  rw [hparent, Bool.and_true, if_pos (by rfl)]
  rfl

/-- No file lies at the path or above it, and an invariant says so and is kept by making the
directories that are missing there. -/
structure Clears (I : Host → Prop) (parts : List String) : Prop where
  no_file : ∀ w, I w → ∀ at_, at_ <+: parts → ∀ content, w.disk.get? at_ ≠ some (.file content)
  make : ∀ w at_, I w → at_ <+: parts → w.disk.has at_ = false → I (w.after [.makeDirectory at_])

theorem Clears.of_isPrefix {I : Host → Prop} {a b : List String} (hb : Clears I b) (h : a <+: b) :
    Clears I a where
  no_file w hw at_ hat := hb.no_file w hw at_ (hat.trans h)
  make w at_ hw hat := hb.make w at_ hw (hat.trans h)

section

variable {bad : Failure → Host → Prop} {I : Host → Prop} {parts : List String}
  (hparts : Path.Descends parts) (hnull : Path.NoNull parts) (hclear : Clears I parts)
include hparts hnull hclear

theorem Clears.ends_ensureDirectory (hlong : Refuses bad (Path.render ⟨.root, parts⟩)) {w : Host}
    (hw : I w) (hopens : w.disk.OpensTo parts) :
    Ends (fun _ v => I v ∧ v.disk.Holds parts) bad (ensureDirectory ⟨.root, parts⟩) w := by
  have hfile := hclear.no_file w hw parts List.prefix_rfl
  refine (Action.ends_ensureDirectory hparts hnull hlong hopens hfile).mono ?_
  rintro - v - (⟨rfl, hget⟩ | ⟨rfl, hhas⟩)
  · exact ⟨hw, hopens.holds hget⟩
  · have hne : parts ≠ [] := by
      rintro rfl
      cases hhas
    exact ⟨hclear.make w parts hw List.prefix_rfl hhas, hopens.holds_set hne⟩

/-- Directories are ensured at a path and above it where no file is in the way. -/
theorem Clears.ends_ensureDirectories
    (hlong : ∀ at_, at_ <+: parts → Refuses bad (Path.render ⟨.root, at_⟩)) {n : Nat}
    (hn : parts.length ≤ n) {w : Host} (hw : I w) :
    Ends (fun _ v => I v ∧ v.disk.Holds parts) bad (ensureDirectories n ⟨.root, parts⟩) w := by
  induction n generalizing parts w with
  | zero =>
    have hself := hlong parts List.prefix_rfl
    obtain rfl := List.length_eq_zero_iff.mp (Nat.le_zero.mp hn)
    exact hclear.ends_ensureDirectory hparts hnull hself hw fun above habove hne =>
      absurd (List.prefix_nil.mp habove) hne
  | succ n ih =>
    have hself := hlong parts List.prefix_rfl
    rcases makeDirectory_outcomes hparts hnull w with
      ⟨hopens, -, hrun⟩ | ⟨fault, hrun, ⟨rfl, hopens, -, -⟩ | hblocked | ⟨rfl, htoo⟩⟩
    · rw [Ends, runIn_ensureDirectories_succ fun e v h => nomatch hrun.symm.trans h]
      exact hclear.ends_ensureDirectory hparts hnull hself hw hopens
    · rw [Ends, runIn_ensureDirectories_succ fun e v h => by cases hrun.symm.trans h; rfl]
      exact hclear.ends_ensureDirectory hparts hnull hself hw hopens
    · cases hblocked with
      | @missing above habove hne hget =>
        have hroot : parts ≠ [] := by
          rintro rfl
          exact hne (List.prefix_nil.mp habove)
        have hup := List.dropLast_prefix parts
        rw [Ends, runIn_ensureDirectories_of_missing hroot hrun]
        have hlength : parts.dropLast.length ≤ n := by
          rw [List.length_dropLast]
          omega
        refine Ends.bind (ih (hparts.of_isPrefix hup) (hnull.of_isPrefix hup)
          (hclear.of_isPrefix hup) (fun at_ hat => hlong at_ (hat.trans hup)) hlength hw)
          fun _ v _ hv => ?_
        exact hclear.ends_ensureDirectory hparts hnull hself hv.1 hv.2.opensTo_of_dropLast
      | @file above content habove hne hget =>
        exact absurd hget (hclear.no_file w hw above habove content)
    · rw [Ends, runIn_ensureDirectories_succ fun e v h => by cases hrun.symm.trans h; rfl]
      unfold ensureDirectory
      have hattempt := runIn_attempt (makeDirectory ⟨.root, parts⟩) w
      rw [hrun] at hattempt
      rw [runIn_bind_of_ok hattempt]
      refine (ends_unlessDirectory hparts hself (hself htoo)).mono ?_
      rintro - v - ⟨rfl, hopens, hget⟩
      exact ⟨hw, hopens.holds hget⟩

end

/-- A text is written at a path that can be reached, unless there is a directory. -/
theorem ends_writeText {bad : Failure → Host → Prop} {parts : List String}
    (hlong : Refuses bad (Path.render ⟨.root, parts⟩)) (hparts : Path.Descends parts)
    (hnull : Path.NoNull parts) (hne : parts ≠ []) {w : Host} (hopens : w.disk.OpensTo parts)
    (hdirectory : w.disk.get? parts = some .directory →
      bad (.disk { fault := .isADirectory, name := Path.render ⟨.root, parts⟩ }) w) (t : Text) :
    Ends (fun _ v => w.disk.get? parts ≠ some .directory ∧
      v = w.after [.truncate parts, .write parts (Utf8.encode t)]) bad
      (writeText (Path.render ⟨.root, parts⟩) t) w := by
  have hslash := Path.wantsDirectory_render hparts hne
  have hwritable : ∀ fault, w.disk.writable w.cwd (Path.render ⟨.root, parts⟩) = .error fault →
      (writeText (Path.render ⟨.root, parts⟩) t).runIn w =
        (.error (.disk { fault, name := Path.render ⟨.root, parts⟩ }), w) :=
    fun fault h => runIn_bind_of_error (runIn_ask_of_error hnull.contains_render h)
  cases hlocate : w.disk.locate w.cwd (Path.render ⟨.root, parts⟩) with
  | error fault =>
    have hfault : w.disk.writable w.cwd (Path.render ⟨.root, parts⟩) = .error fault := by
      rw [Disk.writable, hslash, if_neg Bool.false_ne_true, hlocate]
      rfl
    obtain ⟨rfl, htoo⟩ :=
      (Disk.locate_render_eq_error hparts hlocate).resolve_left hopens.not_blocked
    exact .of_error (hwritable _ hfault) (hlong htoo w)
  | ok at_ =>
    obtain ⟨rfl, -⟩ := Disk.locate_render_eq_ok hparts hlocate
    by_cases hget : w.disk.get? at_ = some .directory
    · have hfault : w.disk.writable w.cwd (Path.render ⟨.root, at_⟩) = .error .isADirectory := by
        rw [Disk.writable, hslash, if_neg Bool.false_ne_true, hlocate]
        exact if_pos (decide_eq_true hget)
      exact .of_error (hwritable _ hfault) (hdirectory hget)
    · exact .of_ok (runIn_writeText ⟨hnull.contains_render, hslash, hlocate, hget⟩ t) ⟨hget, rfl⟩

/-! ## 4. Temporary directories -/

theorem toList_temporaryName (start : String) (n : Nat) :
    (temporaryName start n).toList = start.toList ++
      (List.replicate (8 - (toString n).length) '0' ++ (toString n).toList) := by
  unfold temporaryName
  rw [String.toList_append, String.toList_append, String.toList_ofList, List.append_assoc]

theorem decimal_replicate_zero (k : Nat) (t : Text) :
    Text.decimal (List.replicate k '0' ++ t) = Text.decimal t := by
  induction k with
  | zero => rfl
  | succ k ih => exact ih

/-- Different numbers give different names. -/
theorem temporaryName_injective (start : String) : Function.Injective (temporaryName start) := by
  intro m n h
  rw [← String.toList_inj, toList_temporaryName, toList_temporaryName,
    List.append_cancel_left_eq] at h
  have hdecimal := congrArg Text.decimal h
  rwa [decimal_replicate_zero, decimal_replicate_zero, Text.decimal_toString,
    Text.decimal_toString] at hdecimal

/-- A name that is not free is the part of some entry at its depth. -/
theorem mem_parts_of_not_isFree {disk : Disk} {directory : Location} {name : String}
    (h : ¬disk.isFree (directory ++ [name]) = true) :
    name ∈ disk.filterMap fun entry => entry.1[directory.length]? := by
  rw [Disk.isFree, List.all_eq_true] at h
  push Not at h
  obtain ⟨entry, hentry, hprefix⟩ := h
  rw [ne_eq, Bool.not_eq_true', Bool.not_eq_false, List.isPrefixOf_iff_prefix] at hprefix
  obtain ⟨rest, hrest⟩ := hprefix
  refine List.mem_filterMap.mpr ⟨entry, hentry, ?_⟩
  rw [← hrest, List.append_assoc, List.getElem?_append_right (Nat.le_refl _), Nat.sub_self]
  rfl

/-- Of more names than there are entries on the disk one is free, so a free one is taken. -/
theorem isFree_freeName (disk : Disk) (directory : Location) (start : String) :
    disk.isFree (directory ++ [freeName disk directory start]) = true ∧
      ∃ n ≤ disk.length, freeName disk directory start = temporaryName start n := by
  unfold freeName
  dsimp only
  cases hfind : ((List.range (disk.length + 1)).map (temporaryName start)).find?
      fun name => disk.isFree (directory ++ [name]) with
  | some name =>
    have hfree := List.find?_some hfind
    obtain ⟨n, hn, hname⟩ := List.mem_map.mp (List.mem_of_find?_eq_some hfind)
    exact ⟨hfree, n, Nat.le_of_lt_succ (List.mem_range.mp hn), hname.symm⟩
  | none =>
    exfalso
    rw [List.find?_eq_none] at hfind
    have hnodup : ((List.range (disk.length + 1)).map (temporaryName start)).Nodup :=
      List.nodup_range.map (temporaryName_injective start)
    have hsubset : (List.range (disk.length + 1)).map (temporaryName start) ⊆
        disk.filterMap fun entry => entry.1[directory.length]? :=
      fun name hname => mem_parts_of_not_isFree (hfind name hname)
    have hlength := (hnodup.subperm hsubset).length_le
    have hfewer := List.length_filterMap_le (fun entry : Location × Entry =>
      entry.1[directory.length]?) disk
    rw [List.length_map, List.length_range] at hlength
    omega

theorem noNull_freeName (disk : Disk) (directory : Location) {start : String}
    (hstart : '\x00' ∉ start.toList) : Path.NoNull [freeName disk directory start] := by
  obtain ⟨-, n, -, hname⟩ := isFree_freeName disk directory start
  intro s hs
  rw [List.mem_singleton.mp hs, hname, toList_temporaryName, List.mem_append, List.mem_append,
    not_or, not_or]
  refine ⟨hstart, fun hzero => ?_, fun hdigit => ?_⟩
  · exact absurd (List.eq_of_mem_replicate hzero) (by decide)
  · exact absurd ((Text.isNumeral_toString n).digits _ hdigit) (by decide)

/-- An action with a directory of its own starts with this directory, which is new. It fails as the
action does, or because the name of the directory is too long. -/
theorem ends_withDirectory {bad : Failure → Host → Prop} {parts : List String}
    (hparts : Path.Descends parts) (hnull : Path.NoNull parts) {start : String}
    (hlength : 2 < start.toList.length) (hslash : '/' ∉ start.toList)
    (hstart : '\x00' ∉ start.toList) {w : Host} (hholds : w.disk.Holds parts) {name : String}
    (hfreeName : freeName w.disk parts start = name)
    (hlong : Refuses bad (Path.render ⟨.root, parts ++ [name]⟩))
    (hafter : ∀ e v m, bad e v → bad e (v.after [m])) {action : Path → Action α}
    {good : α → Host → Prop}
    (haction : Path.Descends [name] → Path.NoNull [name] →
      w.disk.isFree (parts ++ [name]) = true →
      Ends good bad (action ⟨.root, parts ++ [name]⟩)
        (w.after [.makeDirectory (parts ++ [name])])) :
    Ends (fun a v => ∃ u m, good a u ∧ v = u.after [m]) bad
      (withDirectory ⟨.root, parts⟩ start action) w := by
  unfold withDirectory
  rw [Ends, runIn_bind_of_ok (runIn_get w)]
  dsimp only
  rw [Path.resolve_of_descends _ hparts]
  obtain ⟨hfree, -⟩ := isFree_freeName w.disk parts start
  have hname := descends_freeName w.disk parts hlength hslash
  have hclean := noNull_freeName w.disk parts hstart
  rw [hfreeName] at hfree hname hclean ⊢
  have hplace := hparts.append hname
  have hchild : Path.child ⟨.root, parts⟩ name = ⟨.root, parts ++ [name]⟩ := rfl
  rw [hchild, Path.resolve_of_descends _ hplace]
  have hhas := Disk.has_of_isFree hfree List.prefix_rfl (by simp)
  rcases makeDirectory_outcomes hplace (hnull.append hclean) w with
    ⟨-, -, hmake⟩ | ⟨fault, hmake, ⟨-, -, hthere, -⟩ | hblocked | ⟨rfl, htoo⟩⟩
  · rw [runIn_bind_of_ok hmake]
    have hrun := haction hname hclean hfree
    rcases hresult : (action ⟨.root, parts ++ [name]⟩).runIn
      (w.after [.makeDirectory (parts ++ [name])]) with ⟨result, v⟩
    have hattempt := runIn_attempt (action ⟨.root, parts ++ [name]⟩)
      (w.after [.makeDirectory (parts ++ [name])])
    rw [hresult] at hattempt
    rw [runIn_bind_of_ok hattempt, runIn_bind_of_ok (runIn_perform _ v), runIn_lift]
    cases result with
    | ok a => exact ⟨v, _, hrun.ok hresult, rfl⟩
    | error e => exact hafter _ _ _ (hrun.error hresult)
  · rw [hhas] at hthere
    cases hthere
  · exact absurd hblocked (hholds.opensTo name).not_blocked
  · rw [runIn_bind_of_error hmake]
    exact hlong htoo w

end Action

end ChainGuard
