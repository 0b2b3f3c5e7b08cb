import ChainGuard.Proofs.Compiler
import ChainGuard.Proofs.Dict

/-!
# Places in overlays

An overlay holds every working text at the place that it has below the common directory of all
files. Texts with different places in the project have different places in the overlay, all of them
inside it, and each place leads back to the name of its text.

1. `Overlay.covering`, `Overlay.placeOf`: the overlay for some files, and their places in the
   project. `collect_eq`: the compiler is run in such an overlay. `isPrefix_base_covering_iff`: its
   base is the deepest directory that holds them.
2. `Overlay.Mirrors`, `mirrors_covering`: the place of one file.
3. `Mirrors.placeOf_eq`, `get?_names`: different places, and the way back to the names.
4. `Overlay.Configures`, `config_outcomes`: the configuration. `forall₂_roots`,
   `roots_under_common`: the files that it lists.
5. Main statement: `Overlay.covering_confines_and_inverts`.
-/

namespace ChainGuard

namespace Overlay

/-! ## 1. Overlays for files -/

/-- The overlay in a directory for the given files, as it is made for a run of the compiler: their
common directory is its base. -/
def covering (cwd directory : Path) (names : List String) : Overlay :=
  ⟨cwd, directory, Path.commonBase cwd (names.map Path.ofString)⟩

/-- The compiler is run in the overlay for the root files and the working texts. -/
theorem collect_eq (c : Compiler) (files : Files) (roots : List String) (config : CompilerConfig) :
    c.collect files roots config = (do
      let cwd ← Action.workingDirectory
      let above := c.directory.getD (Path.ofString (← get).temporary)
      let diagnostics ← Action.withDirectory above Compiler.overlayStart fun directory =>
        c.collectIn (covering cwd directory (roots ++ files.keys)) files roots config
      Action.note .debug "chainfix.frontend.tsc" s!"tsc reported {diagnostics.length} diagnostic(s)"
      pure diagnostics) :=
  rfl

def placeOf (cwd : Path) (name : String) : Location :=
  (Path.absolute cwd (Path.ofString name)).parts

section

variable {cwd directory : Path} {place : Location} {names : List String}

theorem descends_placeOf (hcwd : cwd.IsRead) (name : String) : Path.Descends (placeOf cwd name) :=
  Path.descends_absolute hcwd (Path.isRead_ofString name)

/-- The base of an overlay is the deepest directory that is or holds the parent of every file. -/
theorem isPrefix_base_covering_iff (hnames : names ≠ []) {dir : List String} :
    dir <+: (covering cwd directory names).base.parts ↔
      ∀ name ∈ names, dir <+: (placeOf cwd name).dropLast := by
  have hne : names.map Path.ofString ≠ [] := fun h => hnames (List.map_eq_nil_iff.mp h)
  exact (Path.isPrefix_commonBase_iff hne).trans List.forall_mem_map

theorem base_isPrefix_dropLast {name : String} (hname : name ∈ names) :
    (covering cwd directory names).base.parts <+: (placeOf cwd name).dropLast :=
  (isPrefix_base_covering_iff (List.ne_nil_of_mem hname)).mp List.prefix_rfl name hname

theorem anchor_base_covering (hnames : names ≠ []) :
    (covering cwd directory names).base.anchor = .root :=
  Path.anchor_commonBase fun h => hnames (List.map_eq_nil_iff.mp h)

/-- A file has a place below the base, unless it is the root. -/
theorem exists_placeOf_eq_append {name : String} (hname : name ∈ names)
    (hroot : placeOf cwd name ≠ []) : ∃ rest, rest ≠ [] ∧
      placeOf cwd name = (covering cwd directory names).base.parts ++ rest := by
  have hparent : (covering cwd directory names).base.parts <+: (placeOf cwd name).dropLast :=
    base_isPrefix_dropLast hname
  obtain ⟨rest, hrest⟩ := hparent.trans (List.dropLast_prefix _)
  refine ⟨rest, ?_, hrest.symm⟩
  rintro rfl
  have hlength := hparent.length_le
  have hpos := List.length_pos_iff.mpr hroot
  rw [List.append_nil] at hrest
  rw [hrest, List.length_dropLast] at hlength
  omega

/-! ## 2. The place of a file -/

/-- The way `rest` to a file leads down: from the base to its place in the project, and from the
directory of the overlay to its place there. -/
structure Mirrors (overlay : Overlay) (name : String) (rest : List String) : Prop where
  ne_nil : rest ≠ []
  descends : Path.Descends rest
  relative : overlay.relative name = ⟨.relative, rest⟩
  target : overlay.target name = ⟨.root, overlay.directory.parts ++ rest⟩
  resolved : Path.resolve overlay.cwd (overlay.target name) = overlay.target name
  base : (overlay.base.join (overlay.relative name)).parts = placeOf overlay.cwd name

theorem mirrors_covering (hcwd : cwd.IsRead) (hplace : Path.Descends place) {name : String}
    (hname : name ∈ names) (hroot : placeOf cwd name ≠ []) :
    ∃ rest, (covering cwd ⟨.root, place⟩ names).Mirrors name rest := by
  obtain ⟨rest, hne, heq⟩ : ∃ rest, rest ≠ [] ∧
      placeOf cwd name = (covering cwd ⟨.root, place⟩ names).base.parts ++ rest :=
    exists_placeOf_eq_append hname hroot
  have hrest : Path.Descends rest := fun part hpart =>
    descends_placeOf hcwd name part (heq ▸ List.mem_append_right _ hpart)
  have hrelative : (covering cwd ⟨.root, place⟩ names).relative name = ⟨.relative, rest⟩ := by
    have hway := Path.relativeTo_commonBase hcwd (Path.isRead_ofString name)
      (List.mem_map_of_mem hname)
    refine hway.trans (congrArg (Path.mk .relative) ?_)
    show (placeOf cwd name).drop _ = rest
    rw [heq]
    exact List.drop_left
  have htarget : (covering cwd ⟨.root, place⟩ names).target name = ⟨.root, place ++ rest⟩ := by
    rw [target, hrelative]
    rfl
  refine ⟨rest, hne, hrest, hrelative, htarget, ?_, ?_⟩
  · rw [htarget]
    exact Path.resolve_of_descends cwd (hplace.append hrest)
  · rw [hrelative]
    exact heq.symm

end

/-! ## 3. Different places, and the way back -/

section

variable {overlay : Overlay} {files : Files}

/-- Files with one place in the overlay have one place in the project. -/
theorem Mirrors.placeOf_eq {a b : String} {restA restB : List String}
    (ha : overlay.Mirrors a restA) (hb : overlay.Mirrors b restB)
    (h : overlay.target a = overlay.target b) :
    placeOf overlay.cwd a = placeOf overlay.cwd b := by
  rw [ha.target, hb.target] at h
  have hrest : restA = restB := List.append_cancel_left (congrArg Path.parts h)
  rw [← ha.base, ← hb.base, ha.relative, hb.relative, hrest]

/-- The place of a file is strictly inside the directory of the overlay. -/
theorem Mirrors.isUnder_directory {name : String} {rest : List String}
    (h : overlay.Mirrors name rest) (hdirectory : overlay.directory.anchor = .root) :
    (overlay.target name).isUnder overlay.directory = true ∧
      overlay.target name ≠ overlay.directory := by
  rw [h.target]
  constructor
  · rw [Path.isUnder, hdirectory, Bool.and_eq_true]
    exact ⟨rfl, List.isPrefixOf_iff_prefix.mpr (List.prefix_append _ rest)⟩
  · intro heq
    exact h.ne_nil (List.append_right_eq_self.mp (congrArg Path.parts heq))

/-- The text of the place of a file leads back to its name, if no two files have one place in the
project. -/
theorem get?_names (hdirectory : Path.Descends overlay.directory.parts)
    (hmirrors : ∀ name ∈ files.keys, ∃ rest, overlay.Mirrors name rest)
    (hdistinct : (files.keys.map (placeOf overlay.cwd)).Nodup) {name : String}
    (hname : name ∈ files.keys) :
    (overlay.names files).get? (Path.resolve overlay.cwd (overlay.target name)).render =
      some name := by
  have hread : ∀ a ∈ files.keys, Path.ofString (Path.resolve overlay.cwd
      (overlay.target a)).render = overlay.target a := by
    intro a ha
    obtain ⟨rest, hrest⟩ := hmirrors a ha
    rw [hrest.resolved, hrest.target]
    exact Path.ofString_render fun part hpart =>
      (hdirectory.append hrest.descends part hpart).1
  have hkeys : (Dict.keys (files.map fun file =>
      ((Path.resolve overlay.cwd (overlay.target file.1)).render, file.1))).Nodup := by
    have hnames : files.keys.Pairwise fun a b => placeOf overlay.cwd a ≠ placeOf overlay.cwd b :=
      List.pairwise_map.mp hdistinct
    have hsame : Dict.keys (files.map fun file =>
        ((Path.resolve overlay.cwd (overlay.target file.1)).render, file.1)) =
          files.keys.map fun a => (Path.resolve overlay.cwd (overlay.target a)).render := by
      rw [Dict.keys, Dict.keys, List.map_map, List.map_map]
      rfl
    rw [hsame]
    refine List.pairwise_map.mpr (hnames.imp_of_mem fun {a b} ha hb hne heq => hne ?_)
    obtain ⟨_, hmirrorsA⟩ := hmirrors a ha
    obtain ⟨_, hmirrorsB⟩ := hmirrors b hb
    refine hmirrorsA.placeOf_eq hmirrorsB ?_
    rw [← hread a ha, ← hread b hb]
    exact congrArg Path.ofString heq
  obtain ⟨⟨_, text⟩, hmem, rfl⟩ := List.mem_map.mp hname
  rw [names, Dict.ofPairs_of_nodup hkeys]
  exact Dict.get?_of_mem hkeys (List.mem_map_of_mem hmem)

end

/-! ## 4. The configuration -/

/-- The settings of the compiler name a root directory and list files. -/
def Configures (settings : JsonValue) (rootDirectory : String) (listed : List String) : Prop :=
  ∃ members options : Dict JsonValue, settings = .object members ∧
    members.get? "files" = some (.array (listed.map .text)) ∧
    members.get? "compilerOptions" = some (.object options) ∧
    options.get? "rootDir" = some (.text rootDirectory)

section

variable {overlay : Overlay} {compiler : CompilerConfig} {listed : List String}

theorem get?_rootDir (options : Dict JsonValue) (rootDirectory : String) :
    (options.update (overlay.ownOptions rootDirectory)).get? "rootDir" =
      some (.text rootDirectory) := by
  unfold ownOptions Dict.update
  simp only [List.foldl_cons, List.foldl_nil]
  rw [Dict.get?_set_of_ne (by decide), Dict.get?_set_self]

/-- The configuration can be put together, with the common directory of the overlay and of its base
as root directory, unless the name of the configuration that it starts from has a null character. -/
theorem config_outcomes (hdirectory : overlay.directory.isAbsolute = true)
    (hbase : overlay.base.isAbsolute = true) :
    (∃ project, compiler.base = some project ∧ '\x00' ∈ project.toList ∧
        overlay.config listed compiler = .error .nullInName) ∨
      ∃ settings, overlay.config listed compiler = .ok settings ∧
        Configures settings
          (Path.render ⟨.root, Path.commonStart overlay.directory.parts overlay.base.parts⟩)
          listed := by
  unfold config
  rw [Path.commonText?_of_isAbsolute hdirectory hbase]
  generalize Path.render _ = rootDirectory
  dsimp only
  cases compiler.base with
  | none => exact .inr ⟨_, rfl, _, _, rfl, rfl, rfl, get?_rootDir _ _⟩
  | some project =>
    dsimp only
    split
    · next hnull => exact .inl ⟨project, rfl, List.contains_iff_mem.mp hnull, rfl⟩
    · exact .inr ⟨_, rfl, _, _, rfl, rfl, rfl, get?_rootDir _ _⟩

section

variable {cwd : Path} {place : Location} {roots : List String} {files : Files} (hcwd : cwd.IsRead)
  (hplace : Path.Descends place) (hroot : ∀ name ∈ files.keys, placeOf cwd name ≠ [])
include hcwd hplace hroot

/-- The root file for a root name is read as a path. -/
theorem ofString_root (roots : List String) (name : String) :
    let overlay := covering cwd ⟨.root, place⟩ (roots ++ files.keys)
    Path.ofString (if files.has name then (overlay.target name).render
        else (Path.absolute cwd (Path.ofString name)).render) =
      if files.has name then overlay.target name else Path.absolute cwd (Path.ofString name) := by
  intro overlay
  split
  · next hhas =>
    obtain ⟨text, htext⟩ := Option.isSome_iff_exists.mp hhas
    have hkey := Dict.mem_keys_of_get? htext
    obtain ⟨rest, hmirrors⟩ : ∃ rest, overlay.Mirrors name rest := mirrors_covering hcwd hplace
      (List.mem_append_right roots hkey) (hroot name hkey)
    rw [hmirrors.target]
    exact Path.ofString_render fun part hpart => (hplace.append hmirrors.descends part hpart).1
  · exact Path.ofString_render fun part hpart => (descends_placeOf hcwd name part hpart).1

/-- There is one root file for each root name, in the same order: its place in the overlay if it has
a working text, and its place on disk otherwise. -/
theorem forall₂_roots :
    let overlay := covering cwd ⟨.root, place⟩ (roots ++ files.keys)
    List.Forall₂ (fun name file => Path.ofString file =
        if files.has name then overlay.target name else Path.absolute cwd (Path.ofString name))
      roots (overlay.roots files roots) :=
  List.forall₂_map_right_iff.mpr (List.forall₂_same.mpr fun name _ =>
    ofString_root hcwd hplace hroot roots name)

/-- Every root file, with a working text or without one, lies below the directory that the overlay
and its base have in common. -/
theorem roots_under_common (habsolute : cwd.isAbsolute = true) :
    let overlay := covering cwd ⟨.root, place⟩ (roots ++ files.keys)
    ∀ file ∈ overlay.roots files roots, (Path.ofString file).isAbsolute = true ∧
      Path.commonStart place overlay.base.parts <+: (Path.ofString file).parts := by
  intro overlay file hfile
  obtain ⟨name, hname, rfl⟩ := List.mem_map.mp hfile
  have hread := ofString_root hcwd hplace hroot roots name
  dsimp only at hread
  rw [show overlay.cwd = cwd from rfl, hread]
  split
  · next hhas =>
    obtain ⟨text, htext⟩ := Option.isSome_iff_exists.mp hhas
    have hkey := Dict.mem_keys_of_get? htext
    obtain ⟨rest, hmirrors⟩ : ∃ rest, overlay.Mirrors name rest := mirrors_covering hcwd hplace
      (List.mem_append_right roots hkey) (hroot name hkey)
    have htarget : (covering cwd ⟨.root, place⟩ (roots ++ files.keys)).target name =
        ⟨.root, place ++ rest⟩ := hmirrors.target
    rw [htarget]
    exact ⟨rfl, (Path.commonStart_prefix_left _ _).trans (List.prefix_append place rest)⟩
  · refine ⟨Path.isAbsolute_absolute habsolute _, (Path.commonStart_prefix_right _ _).trans ?_⟩
    exact (base_isPrefix_dropLast (List.mem_append_left files.keys hname)).trans
      (List.dropLast_prefix _)

end

end

/-! ## 5. Whole overlays -/

/-- In an overlay on files that are not the root and have different places,

* every file has a place strictly inside the overlay, and the way to it from the base leads down to
  the place of the file in the project;
* different files have different places, each of which leads back to the name of its file;
* the base is the deepest directory that is or holds the parent of every given path;
* the configuration lists root files that all lie below its root directory. -/
theorem covering_confines_and_inverts {cwd : Path} (hcwd : cwd.IsRead)
    (habsolute : cwd.isAbsolute = true) {place : Location} (hplace : Path.Descends place)
    {roots : List String} {files : Files} (hgiven : roots ++ files.keys ≠ [])
    (hroot : ∀ name ∈ files.keys, placeOf cwd name ≠ [])
    (hdistinct : (files.keys.map (placeOf cwd)).Nodup) :
    let overlay := covering cwd ⟨.root, place⟩ (roots ++ files.keys)
    (∀ name ∈ files.keys,
      (∃ rest, rest ≠ [] ∧ Path.Descends rest ∧ overlay.relative name = ⟨.relative, rest⟩) ∧
      (overlay.target name).isUnder overlay.directory = true ∧
      overlay.target name ≠ overlay.directory ∧
      Path.resolve cwd (overlay.target name) = overlay.target name ∧
      (overlay.base.join (overlay.relative name)).parts = placeOf cwd name ∧
      (overlay.names files).get? (Path.resolve cwd (overlay.target name)).render = some name) ∧
    (∀ a ∈ files.keys, ∀ b ∈ files.keys, a ≠ b → overlay.target a ≠ overlay.target b) ∧
    overlay.base.anchor = .root ∧
    (∀ dir : List String, dir <+: overlay.base.parts ↔
      ∀ path ∈ roots ++ files.keys, dir <+: (placeOf cwd path).dropLast) ∧
    ∀ compiler : CompilerConfig,
      (∃ project, compiler.base = some project ∧ '\x00' ∈ project.toList ∧
        overlay.config (overlay.roots files roots) compiler = .error .nullInName) ∨
      ∃ settings rootDirectory,
        overlay.config (overlay.roots files roots) compiler = .ok settings ∧
        Configures settings rootDirectory (overlay.roots files roots) ∧
        (Path.ofString rootDirectory).anchor = .root ∧
        ∀ file ∈ overlay.roots files roots, (Path.ofString file).isAbsolute = true ∧
          (Path.ofString rootDirectory).parts <+: (Path.ofString file).parts := by
  intro overlay
  have hmirrors : ∀ name ∈ files.keys, ∃ rest, overlay.Mirrors name rest := fun name hname =>
    mirrors_covering hcwd hplace (List.mem_append_right roots hname) (hroot name hname)
  have hanchor : overlay.base.anchor = .root := anchor_base_covering hgiven
  refine ⟨fun name hname => ?_, fun a ha b hb hne heq => ?_, hanchor,
    fun dir => isPrefix_base_covering_iff hgiven, fun compiler => ?_⟩
  · obtain ⟨rest, h⟩ := hmirrors name hname
    obtain ⟨hunder, hinside⟩ := h.isUnder_directory rfl
    exact ⟨⟨rest, h.ne_nil, h.descends, h.relative⟩, hunder, hinside, h.resolved, h.base,
      get?_names hplace hmirrors hdistinct hname⟩
  · obtain ⟨_, hmirrorsA⟩ := hmirrors a ha
    obtain ⟨_, hmirrorsB⟩ := hmirrors b hb
    exact hne (List.inj_on_of_nodup_map hdistinct ha hb (hmirrorsA.placeOf_eq hmirrorsB heq))
  · refine (config_outcomes rfl (by rw [Path.isAbsolute, hanchor]; rfl)).imp_right ?_
    rintro ⟨settings, hsettings, hconfigures⟩
    have hread : Path.ofString (Path.render
        ⟨.root, Path.commonStart overlay.directory.parts overlay.base.parts⟩) =
          ⟨.root, Path.commonStart place overlay.base.parts⟩ :=
      Path.ofString_render fun part hpart =>
        (hplace.of_isPrefix (Path.commonStart_prefix_left _ _) part hpart).1
    refine ⟨settings, _, hsettings, hconfigures, by rw [hread], ?_⟩
    rw [hread]
    exact roots_under_common hcwd hplace hroot habsolute

/-- Two working texts below the directory `/w`, with names seen from `/w/x`. -/
def dottedFiles : Files :=
  [("../a.ts", "a".toList), ("y/.././c/d.ts", "d".toList)]

/-- The overlay in `/o` for the two texts and a root file that is named with two slashes. -/
def dottedOverlay : Overlay :=
  covering ⟨.root, ["w", "x"]⟩ ⟨.root, ["o"]⟩ (["../a.ts", "//w//lib.ts"] ++ dottedFiles.keys)

/-- The second text has a place of its own in the overlay, which leads back to its name. -/
theorem dotted_names_are_mirrored :
    dottedOverlay.base = ⟨.root, ["w"]⟩ ∧
      (dottedOverlay.target "y/.././c/d.ts").render = "/o/x/c/d.ts" ∧
      dottedOverlay.target "../a.ts" ≠ dottedOverlay.target "y/.././c/d.ts" ∧
      (dottedOverlay.names dottedFiles).get? "/o/x/c/d.ts" = some "y/.././c/d.ts" := by
  have hcwd : Path.IsRead ⟨.root, ["w", "x"]⟩ := by
    intro part hpart
    have hall : ∀ part ∈ ["w", "x"], part ≠ "" ∧ part ≠ "." ∧ '/' ∉ part.toList := by decide
    exact ⟨(hall part hpart).1, (hall part hpart).2.1, (hall part hpart).2.2⟩
  have hplace : Path.Descends ["o"] := by
    intro part hpart
    obtain rfl := List.mem_singleton.mp hpart
    exact ⟨⟨by decide, by decide, by decide⟩, by decide⟩
  have hgiven : ["../a.ts", "//w//lib.ts"] ++ dottedFiles.keys ≠ [] := by decide
  obtain ⟨hmirrored, hdistinct, -⟩ :=
    covering_confines_and_inverts hcwd rfl hplace hgiven (by decide) (by decide)
  have hrender : (Path.resolve ⟨.root, ["w", "x"]⟩
      (dottedOverlay.target "y/.././c/d.ts")).render = "/o/x/c/d.ts" := by
    decide
  refine ⟨by decide, by decide, hdistinct _ (by decide) _ (by decide) (by decide), ?_⟩
  rw [← hrender]
  exact (hmirrored "y/.././c/d.ts" (by decide)).2.2.2.2.2

end Overlay

end ChainGuard
