import ChainGuard.Compiler
import ChainGuard.Proofs.Host

/-!
# The compiler leaves nothing behind

For diagnostics the working texts are written to an overlay. All of it lies inside a directory that
was not there before and is removed afterwards, so the disk is then as it was, whatever happened in
between.

1. `Host.Inside`: changes inside a directory that stays.
2. `Compiler.leads_collectIn`: everything an overlay needs is written inside it.
3. `Host.Restores`, `Host.CleansUp`, `Compiler.leads_collect`: the disk is as it was, and nothing
   that was there was touched on the way.
-/

namespace ChainGuard

open ChainGuard.Action (IsFrame Leads MakesAt WritesAt)

/-! ## 1. Inside a directory -/

/-- A directory that is there stays, without it the disk is the same, and no change was made
elsewhere. -/
def Host.Inside (place : Location) (w w' : Host) : Prop :=
  w.disk.Holds place →
    w'.disk.Holds place ∧ w'.disk.removeTree place = w.disk.removeTree place ∧
      w.Spares (fun at_ => ¬place <+: at_) w'

namespace Host

theorem isFrame_inside (place : Location) : IsFrame (Inside place) where
  quiet h := by
    intro hholds
    rw [h.disk]
    exact ⟨hholds, rfl, h.spares _⟩
  trans hab hbc := by
    intro hholds
    obtain ⟨hb, htree, hspares⟩ := hab hholds
    obtain ⟨hc, htree', hspares'⟩ := hbc hb
    exact ⟨hc, htree'.trans htree, hspares.trans hspares'⟩

theorem inside_set {place at_ : Location} {w w' : Host} {entry : Entry} (hunder : place <+: at_)
    (hne : at_ ≠ place) (hdisk : w'.disk = w.disk.set at_ entry)
    (hspares : w.Spares (fun other => ¬place <+: other) w') : Inside place w w' := by
  intro hholds
  refine ⟨?_, by rw [hdisk, Disk.removeTree_set entry hunder], hspares⟩
  intro above habove
  have hother : above ≠ at_ := by
    rintro rfl
    exact hne (habove.eq_of_length_le hunder.length_le)
  rw [hdisk, Disk.get?_set_of_ne entry hother]
  exact hholds above habove

theorem makesAt_inside {place at_ : Location} (h : place <+: at_ ∨ at_ <+: place) :
    MakesAt (Inside place) at_ := by
  intro w w' hhas hperforms hholds
  have hnew : ¬at_ <+: place := by
    intro habove
    rw [Disk.has_of_get? (hholds at_ habove)] at hhas
    cases hhas
  rcases h with hunder | habove
  · refine inside_set hunder ?_ hperforms.disk ?_ hholds
    · rintro rfl
      exact hnew List.prefix_rfl
    · exact makesAt_spares (fun hoff => hoff hunder) w w' hhas hperforms
  · exact absurd habove hnew

theorem writesAt_inside {place at_ : Location} (h : place <+: at_) :
    WritesAt (Inside place) at_ := by
  intro w w' content hfile hperforms hholds
  have hdisk : w'.disk = w.disk.set at_ (.file content) :=
    hperforms.disk.trans (Disk.set_set w.disk at_ _ _)
  refine inside_set h ?_ hdisk (hperforms.spares_write fun hoff => hoff h) hholds
  rintro rfl
  exact hfile (hholds at_ List.prefix_rfl)

end Host

/-! ## 2. Overlays -/

namespace Overlay

/-- In an overlay on a common directory a file has the place that it has below that directory. -/
theorem target_eq_drop {cwd : Path} {paths : List Path} {name : String} (hcwd : cwd.IsRead)
    (h : Path.ofString name ∈ paths) (place : Location) :
    target ⟨cwd, ⟨.root, place⟩, Path.commonBase cwd paths⟩ name =
      ⟨.root, place ++ (Path.absolute cwd (Path.ofString name)).parts.drop
        (Path.commonBase cwd paths).parts.length⟩ := by
  unfold target relative
  rw [Path.relativeTo_commonBase hcwd (Path.isRead_ofString name) h]
  rfl

/-- The place of a file in an overlay on a common directory lies in the overlay. -/
theorem target_eq {cwd : Path} {paths : List Path} {name : String} (hcwd : cwd.IsRead)
    (h : Path.ofString name ∈ paths) (place : Location) :
    ∃ rest, Path.Descends rest ∧
      target ⟨cwd, ⟨.root, place⟩, Path.commonBase cwd paths⟩ name = ⟨.root, place ++ rest⟩ := by
  have hdown := Path.descends_absolute hcwd (Path.isRead_ofString name)
  exact ⟨_, fun s hs => hdown s (List.mem_of_mem_drop hs), target_eq_drop hcwd h place⟩

end Overlay

namespace Compiler

theorem leads_writeTexts {cwd : Path} {place : Location} {paths : List Path} (hcwd : cwd.IsRead)
    (hplace : Path.Descends place) {files : Files}
    (h : ∀ name ∈ files.keys, Path.ofString name ∈ paths) :
    Leads (Host.Inside place)
      (writeTexts ⟨cwd, ⟨.root, place⟩, Path.commonBase cwd paths⟩ files) := by
  have hR := Host.isFrame_inside place
  induction files with
  | nil => exact .pure hR _
  | cons entry rest ih =>
    obtain ⟨name, text⟩ := entry
    obtain ⟨below, hbelow, htarget⟩ := Overlay.target_eq hcwd (h name List.mem_cons_self) place
    have hparts := hplace.append hbelow
    have hparent : place <+: (place ++ below).dropLast ∨ (place ++ below).dropLast <+: place := by
      exact List.prefix_or_prefix_of_prefix (List.prefix_append place below)
        (List.dropLast_prefix _)
    unfold writeTexts
    dsimp only
    rw [htarget]
    refine .bind hR ?_ fun _ => .bind hR ?_ fun _ => ?_
    · refine Action.leads_ensureDirectories hR (hparts.of_isPrefix (List.dropLast_prefix _)) ?_ _
      intro at_ hat
      refine Host.makesAt_inside ?_
      rcases hparent with hunder | habove
      · exact List.prefix_or_prefix_of_prefix hunder hat
      · exact Or.inr (hat.trans habove)
    · exact Action.leads_writeText hR hparts (Host.writesAt_inside (List.prefix_append _ _)) _
    · exact ih fun other hother => h other (List.mem_cons_of_mem _ hother)

theorem leads_firstExisting (paths : List Path) : Leads Host.Quiet (firstExisting paths) := by
  have hR := Action.isFrame_quiet
  induction paths with
  | nil => exact .pure hR _
  | cons p rest ih =>
    exact .bind hR (Action.leads_exists? p) fun _ => .ite (.pure hR _) ih

theorem leads_locate (start : Option Path) : Leads Host.Quiet (locate start) := by
  have hR := Action.isFrame_quiet
  unfold locate
  refine .bind hR (fun w => .refl w) fun cwd => .bind hR (Action.leads_resolve _) fun here => ?_
  refine .bind hR (leads_firstExisting _) fun found => ?_
  cases found with
  | some p => exact .pure hR _
  | none =>
    refine .bind hR (fun w => .refl w) fun w => ?_
    cases w.onPath with
    | none => exact .throw hR _
    | some path => exact .ite (.throw hR _) (.pure hR _)

theorem leads_run (command arguments : List String) (directory : Path) :
    Leads Host.Quiet (run command arguments directory) := by
  have hR := Action.isFrame_quiet
  refine .bind hR (Action.leads_launch _ _) fun reply => ?_
  cases reply with
  | notFound => exact .throw hR _
  | refused reason => exact .throw hR _
  | failed failure => exact .throw hR _
  | finished output errors status => exact .pure hR _

theorem leads_outcome {R : Host → Host → Prop} (hR : IsFrame R)
    (outcome : List Diagnostic × Option Failure) :
    Leads R (match outcome with
      | (diagnostics, none) => pure diagnostics
      | (_, some failure) => throw failure) := by
  obtain ⟨diagnostics, failure⟩ := outcome
  cases failure with
  | none => exact .pure hR _
  | some failure => exact .throw hR _

/-- Everything that is written for the diagnostics of an overlay is written inside it. -/
theorem leads_collectIn (c : Compiler) {cwd : Path} {place : Location} {paths : List Path}
    (hcwd : cwd.IsRead) (hplace : Path.Descends place) {files : Files}
    (h : ∀ name ∈ files.keys, Path.ofString name ∈ paths) (roots : List String)
    (config : CompilerConfig) :
    Leads (Host.Inside place)
      (c.collectIn ⟨cwd, ⟨.root, place⟩, Path.commonBase cwd paths⟩ files roots config) := by
  have hR := Host.isFrame_inside place
  have hconfig : Path.Descends (place ++ ["tsconfig.json"]) :=
    hplace.append (Path.descends_singleton (by decide) (by decide))
  unfold collectIn
  refine .bind hR (leads_writeTexts hcwd hplace h) fun _ => ?_
  refine .bind hR (.lift hR _) fun settings => ?_
  refine .bind hR (Action.leads_writeText hR hconfig
    (Host.writesAt_inside (List.prefix_append _ _)) _) fun _ => ?_
  dsimp only
  cases c.command with
  | some command =>
    refine .bind hR (.pure hR _) fun command => ?_
    refine .bind hR (.of_quiet hR (leads_run _ _ _)) fun finished => ?_
    exact .ite (.throw hR _) (leads_outcome hR _)
  | none =>
    refine .bind hR (.of_quiet hR (leads_locate _)) fun command => ?_
    refine .bind hR (.of_quiet hR (leads_run _ _ _)) fun finished => ?_
    exact .ite (.throw hR _) (leads_outcome hR _)

/-! ## 3. Whole overlays -/

end Compiler

namespace Host

/-- The disk is a tree, and the working directory is a place that can be written down. -/
structure WellFormed (w : Host) : Prop where
  tree : w.disk.IsTree
  cwd : Path.IsRead ⟨.root, w.cwd⟩

/-- A host in order has the same disk afterwards. -/
def Restores (w w' : Host) : Prop :=
  w.WellFormed → w.SameDisk w'

/-- A host in order has the same disk afterwards, and no change touched what was there. -/
def CleansUp (w w' : Host) : Prop :=
  w.WellFormed → w.SameDisk w' ∧ w.Grows w'

theorem WellFormed.of_sameDisk {w w' : Host} (hw : w.WellFormed) (h : w.SameDisk w') :
    w'.WellFormed :=
  ⟨by rw [h.disk]; exact hw.tree, by rw [h.cwd]; exact hw.cwd⟩

theorem isFrame_cleansUp : IsFrame CleansUp where
  quiet h := fun _ => ⟨h.toSameDisk, h.spares _⟩
  trans hab hbc := fun hw => by
    obtain ⟨hsame, hgrows⟩ := hab hw
    obtain ⟨hsame', hgrows'⟩ := hbc (hw.of_sameDisk hsame)
    exact ⟨hsame.trans hsame', isFrame_grows.trans hgrows hgrows'⟩

end Host

namespace Action

theorem descends_freeName (disk : Disk) (directory : Location) {start : String}
    (hlength : 2 < start.toList.length) (hslash : '/' ∉ start.toList) :
    Path.Descends [freeName disk directory start] := by
  have hname : ∀ n, Path.Descends [temporaryName start n] := by
    intro n
    refine Path.descends_singleton ?_ ?_
    · unfold temporaryName
      simp only [String.toList_append, List.length_append]
      omega
    · refine Path.slash_not_mem_append ?_ (Path.slash_not_mem_toString n)
      exact Path.slash_not_mem_append hslash (Path.slash_not_mem_zeros _)
  unfold freeName
  dsimp only
  cases hfind : ((List.range (disk.length + 1)).map (temporaryName start)).find?
      fun name => disk.isFree (directory ++ [name]) with
  | none => exact Path.descends_singleton hlength hslash
  | some name =>
    obtain ⟨n, -, rfl⟩ := List.mem_map.mp (List.mem_of_find?_eq_some hfind)
    exact hname n

/-- The directory is removed with all that the action left in it, however the action ends. -/
theorem performs_removeTree {α : Type} (action : Action α) (place : Location) (w : Host) :
    (action.runIn w).2.Performs [.removeTree place] (runIn (do
      let result ← attempt action
      perform (.removeTree place)
      lift result) w).2 := by
  rw [runIn_bind, runIn_attempt]
  dsimp only
  rw [runIn_bind]
  show Host.Performs _ _ ((lift _).runIn _).2
  rw [runIn_lift]
  exact ⟨rfl, rfl, rfl, rfl⟩

/-- After an action inside a directory of its own the disk is as it was, and what was there was not
touched. What the action changes lies in the directory and is removed with it. -/
theorem leads_withDirectory {α : Type} {parts : List String} (hparts : Path.Descends parts)
    {start : String} (hlength : 2 < start.toList.length) (hslash : '/' ∉ start.toList)
    (action : Path → Action α)
    (haction : ∀ place, Path.Descends place → Leads (Host.Inside place) (action ⟨.root, place⟩)) :
    Leads Host.CleansUp (withDirectory ⟨.root, parts⟩ start action) := by
  intro w hw
  have hfree := descends_freeName w.disk (Path.resolve ⟨.root, w.cwd⟩ ⟨.root, parts⟩).parts
    hlength hslash
  unfold withDirectory
  rw [runIn_bind, runIn_get]
  dsimp only
  generalize freeName w.disk _ start = name at hfree ⊢
  have hplace : Path.Descends (parts ++ [name]) := hparts.append hfree
  have hchild : Path.child ⟨.root, parts⟩ name = ⟨.root, parts ++ [name]⟩ := rfl
  rw [hchild, Path.resolve_of_descends _ hplace]
  rcases makeDirectory_cases ⟨.root, parts ++ [name]⟩ w with
    ⟨e, hrun⟩ | ⟨at_, w₁, hrun, hlocate, hhas, hmade⟩
  · rw [runIn_bind_of_error hrun]
    exact Host.isFrame_cleansUp.quiet (.refl w) hw
  · obtain ⟨rfl, hopens⟩ := Disk.locate_render_eq_ok hplace hlocate
    have hdisk : w₁.disk = w.disk.set (parts ++ [name]) .directory := hmade.disk
    have hholds : w₁.disk.Holds (parts ++ [name]) := by
      rw [hdisk]
      exact hopens.holds_set (List.append_ne_nil_of_right_ne_nil _ (List.cons_ne_nil _ _))
    obtain ⟨-, htree, hinside⟩ := haction _ hplace w₁ hholds
    have hremoved := performs_removeTree (action ⟨.root, parts ++ [name]⟩) (parts ++ [name]) w₁
    rw [runIn_bind_of_ok hrun]
    generalize (runIn (do
      let result ← attempt (action ⟨.root, parts ++ [name]⟩)
      perform (.removeTree (parts ++ [name]))
      lift result) w₁).2 = w' at hremoved ⊢
    have hspares : w.Spares (fun at_ => ¬parts ++ [name] <+: at_) w' := by
      refine .trans (.trans ?_ hinside) ?_
      · exact Host.makesAt_spares (fun hoff => hoff List.prefix_rfl) w w₁ hhas hmade
      · refine ⟨_, hremoved, fun m hm at_ hat => ?_⟩
        cases List.mem_singleton.mp hm
        exact Mutation.spares_removeTree hat
    refine ⟨⟨?_, hspares.cwd⟩, hspares.mono fun at_ hat hunder => ?_⟩
    · calc w'.disk
          = ((action ⟨.root, parts ++ [name]⟩).runIn w₁).2.disk.removeTree (parts ++ [name]) :=
            hremoved.disk
        _ = w₁.disk.removeTree (parts ++ [name]) := htree
        _ = w.disk.removeTree (parts ++ [name]) := by
            rw [hdisk, Disk.removeTree_set _ List.prefix_rfl]
        _ = w.disk := hw.tree.removeTree_eq_self hhas
    · rw [hw.tree.has_below hhas hunder] at hat
      cases hat

end Action

namespace Compiler

/-- Asking for diagnostics leaves the disk as it was. -/
theorem leads_collect {c : Compiler} {parts : List String}
    (hdirectory : c.directory = some ⟨.root, parts⟩) (hparts : Path.Descends parts) (files : Files)
    (roots : List String) (config : CompilerConfig) :
    Leads Host.CleansUp (c.collect files roots config) := by
  intro w hw
  have hfiles : ∀ name ∈ files.keys, Path.ofString name ∈ (roots ++ files.keys).map Path.ofString :=
    fun name hname => List.mem_map_of_mem (List.mem_append_right roots hname)
  have hleads := Action.leads_withDirectory hparts
    (show 2 < overlayStart.toList.length by decide) (by decide) (fun directory =>
      c.collectIn ⟨⟨.root, w.cwd⟩, directory, Path.commonBase ⟨.root, w.cwd⟩ _⟩ files roots config)
    fun place hplace => leads_collectIn c hw.cwd hplace hfiles roots config
  unfold collect
  rw [Action.runIn_bind_of_ok (Action.runIn_workingDirectory w),
    Action.runIn_bind_of_ok (Action.runIn_get w), hdirectory]
  have hR := Host.isFrame_cleansUp
  refine Leads.bind_from hR (hleads w) (fun _ v _ => ?_) hw
  exact Leads.bind hR (.of_quiet hR (Action.leads_note _ _ _)) (fun _ => .pure hR _) v

theorem leads_noteProgress (progress : Progress) : Leads Host.Quiet (noteProgress progress) := by
  cases progress <;> exact Action.leads_note _ _ _

end Compiler

end ChainGuard
