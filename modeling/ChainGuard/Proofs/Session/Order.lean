import ChainGuard.Proofs.AccessChain
import ChainGuard.Proofs.Guard.Start
import ChainGuard.Proofs.Pass.Account
import ChainGuard.Proofs.Session.Round
import ChainGuard.Proofs.Tree

/-!
# The order of diagnostics

A pass takes diagnostics one after the other: it groups their edits by file in the order of first
sight, drops repeated ones and sorts the rest by their starts. Nothing of the order of the
diagnostics is left in the end, because two different edits for one text never start at the same
position, and different files do not meddle with each other.

1. `Edit.distinct_perm`: batches in any order. The start of a guard determines it
   (`Source.fix?_eq_guardAt`), if no callee is followed by a dot.
2. `Pass.Arranged`: sites in another order, with trees that say the same about every file.
   `Pass.Arranged.files_eq`, `Pass.Arranged.report`: they come to the same.
3. `Session.Ran.agrees`: runs with such answers go alongside each other.
   Main statement: `Session.run_in_any_order`.
-/

namespace ChainGuard

/-! ## 1. Batches in any order -/

namespace Edit

theorem distinct_perm {es es' : List Edit} (h : es.Perm es') :
    (distinct es).Perm (distinct es') := by
  rw [List.perm_ext_iff_of_nodup (nodup_distinct es) (nodup_distinct es')]
  intro e
  rw [mem_distinct, mem_distinct, h.mem_iff]

end Edit

/-! ## 2. Passes in any order -/

/-- The reports are equal but for the order of the files. -/
structure Report.Agrees (r r' : Report) : Prop where
  number : r.number = r'.number
  diagnostics : r.diagnostics = r'.diagnostics
  editsApplied : r.editsApplied = r'.editsApplied
  skipped : r.skipped = r'.skipped
  filesChanged : r.filesChanged.Perm r'.filesChanged

namespace Pass

variable {files : Files} {trees trees' : Dict Tree} {sites sites' : List Site}

/-- The sites are the same in another order, and the trees are the same for every file; in them no
callee is followed by a dot. -/
structure Arranged (files : Files) (trees trees' : Dict Tree) (sites sites' : List Site) :
    Prop where
  same_sites : sites.Perm sites'
  same_trees : ∀ name, trees.get? name = trees'.get? name
  undotted : ∀ name text tree, files.get? name = some text → trees.get? name = some tree →
    (Source.mk text tree).CalleesUndotted

theorem Arranged.asked_perm (h : Arranged files trees trees' sites sites') :
    (asked files trees sites).Perm (asked files trees' sites') := by
  have hedit : edit? files trees = edit? files trees' := by
    funext site
    rw [edit?, edit?, h.same_trees]
  unfold asked
  rw [hedit]
  exact h.same_sites.filterMap _

theorem Arranged.editsFor_perm (h : Arranged files trees trees' sites sites') (name : String) :
    (editsFor files trees sites name).Perm (editsFor files trees' sites' name) :=
  (h.asked_perm.filter _).map _

theorem Arranged.editedNames_perm (h : Arranged files trees trees' sites sites') :
    (editedNames files trees sites).Perm (editedNames files trees' sites') := by
  rw [List.perm_ext_iff_of_nodup (nodup_editedNames files trees sites)
    (nodup_editedNames files trees' sites')]
  intro name
  rw [mem_editedNames, mem_editedNames]
  exact exists_congr fun e => h.asked_perm.mem_iff

/-- Two edits for one file that start at the same position are the same. -/
theorem Arranged.eq_of_start_eq (h : Arranged files trees trees' sites sites') {name : String}
    {a b : Edit} (ha : a ∈ editsFor files trees sites name)
    (hb : b ∈ editsFor files trees sites name) (hstart : a.start = b.start) : a = b := by
  have hguard : ∀ e ∈ editsFor files trees sites name, ∃ text tree, files.get? name = some text ∧
      trees.get? name = some tree ∧ e = (Source.mk text tree).guardAt e.start := by
    intro e he
    obtain ⟨site, -, rfl, hedit⟩ := mem_asked.mp (mem_editsOf.mp he)
    obtain ⟨text, htext, hedit⟩ := Option.bind_eq_some_iff.mp hedit
    obtain ⟨tree, htree, hfix⟩ := Option.bind_eq_some_iff.mp hedit
    exact ⟨text, tree, htext, htree, Source.fix?_eq_guardAt (h.undotted _ _ _ htext htree) hfix⟩
  obtain ⟨text, tree, htext, htree, ha⟩ := hguard a ha
  obtain ⟨text', tree', htext', htree', hb⟩ := hguard b hb
  cases htext.symm.trans htext'
  cases htree.symm.trans htree'
  rw [ha, hb, hstart]

theorem Arranged.edited_eq (h : Arranged files trees trees' sites sites') (name : String) :
    edited files name (editsFor files trees sites name) =
      edited files name (editsFor files trees' sites' name) := by
  refine Edit.applyAll_perm (Edit.distinct_perm (h.editsFor_perm name)) ?_ _
  intro a ha b hb
  exact h.eq_of_start_eq (Edit.mem_distinct.mp ha) (Edit.mem_distinct.mp hb)

/-- The texts come out the same. -/
theorem Arranged.files_eq (h : Arranged files trees trees' sites sites') (number : Nat) :
    (run number files trees sites).files = (run number files trees' sites').files := by
  rw [files_run, files_run]
  simp only [h.edited_eq]
  refine h.editedNames_perm.foldl_eq' ?_ files
  intro name _ other _ out
  by_cases hname : name = other
  · rw [hname]
  · exact Dict.replace_comm out hname _ _

theorem Arranged.report (h : Arranged files trees trees' sites sites') (number : Nat) :
    (run number files trees sites).report.Agrees (run number files trees' sites').report where
  number := rfl
  diagnostics := h.same_sites.length_eq
  editsApplied := by
    rw [editsApplied_eq_card, editsApplied_eq_card, List.toFinset_eq_of_perm _ _ h.asked_perm]
  skipped := by
    have hskipped := skipped_run number files trees sites
    have hskipped' := skipped_run number files trees' sites'
    have hasked := h.asked_perm.length_eq
    have hsites := h.same_sites.length_eq
    omega
  filesChanged := by
    rw [filesChanged_run, filesChanged_run]
    exact h.editedNames_perm

/-! ### Trees by the parser -/

theorem get?_parsed (parse : String → Text → Tree) (files : Files) (names : List String)
    (name : String) :
    Dict.get? ((names.filterMap fun other => (files.get? other).map fun text => (other, text)).map
      fun file => (file.1, parse file.1 file.2)) name =
      if name ∈ names then (files.get? name).map (parse name) else none := by
  induction names with
  | nil => rfl
  | cons first rest ih =>
    cases hfirst : files.get? first with
    | none =>
      rw [List.filterMap_cons_none (by rw [hfirst]; rfl), ih]
      by_cases hname : name = first
      · subst hname
        rw [hfirst, Option.map_none, ite_self, ite_self]
      · simp only [List.mem_cons, hname, false_or]
    | some text =>
      rw [List.filterMap_cons_some (by rw [hfirst]; rfl), List.map_cons, Dict.get?_cons, ih]
      by_cases hname : name = first
      · subst hname
        rw [if_pos rfl, if_pos List.mem_cons_self, hfirst]
        rfl
      · simp only [List.mem_cons, hname, false_or, if_false]

/-- The tree of a file is that of its text, if some site is in the file. -/
theorem get?_treesBy (parse : String → Text → Tree) (files : Files) (sites : List Site)
    (name : String) :
    (treesBy parse files sites).get? name =
      if name ∈ sites.map Site.file then (files.get? name).map (parse name) else none := by
  rw [treesBy, filesToParse, get?_parsed]
  simp only [List.mem_eraseDups]

/-- Whatever the order of the sites, the parser gives the same trees. -/
theorem arranged_treesBy {parse : String → Text → Tree}
    (hparse : ∀ name text, (Source.mk text (parse name text)).CalleesUndotted) (files : Files)
    (h : sites.Perm sites') :
    Arranged files (treesBy parse files sites) (treesBy parse files sites') sites sites' where
  same_sites := h
  same_trees := by
    intro name
    rw [get?_treesBy, get?_treesBy]
    simp only [(h.map Site.file).mem_iff]
  undotted := by
    intro name text tree htext htree
    rw [get?_treesBy, htext] at htree
    split at htree
    · cases htree
      exact hparse name text
    · cases htree

end Pass

/-! ## 3. Runs in any order -/

namespace Session

/-- The sessions are equal but for the order of the files in their reports. -/
structure Agrees (s s' : Session) : Prop where
  files : s.files = s'.files
  codes : s.codes = s'.codes
  totalChanges : s.totalChanges = s'.totalChanges
  passesRun : s.passesRun = s'.passesRun
  reports : List.Forall₂ Report.Agrees s.reports s'.reports

section

variable {σ τ : Type} {tools : Toolchain (StateM σ)} {tools' : Toolchain (StateM τ)}
  {roots : List String} {config : CompilerConfig} {parse : String → Text → Tree}
  {left number : Nat} {s s' r r' : Session} {found found' : List Diagnostic}

/-- Sessions that agree still do after passes with the same sites in another order. -/
theorem Agrees.record {trees trees' : Dict Tree} (h : s.Agrees s')
    (arranged : Pass.Arranged s.files trees trees' (s.sitesOf found) (s'.sitesOf found')) :
    (s.record (s.outcome number found trees)).Agrees
      (s'.record (s'.outcome number found' trees')) := by
  have hfiles : (s.outcome number found trees).files = (s'.outcome number found' trees').files := by
    rw [outcome, outcome, ← h.files]
    exact arranged.files_eq number
  have hreport : (s.outcome number found trees).report.Agrees
      (s'.outcome number found' trees').report := by
    rw [outcome, outcome, ← h.files]
    exact arranged.report number
  exact
    { files := hfiles
      codes := h.codes
      totalChanges := congrArg₂ (· + ·) h.totalChanges hreport.editsApplied
      passesRun := hreport.number
      reports := List.rel_append h.reports (.cons hreport .nil) }

/-- The two toolchains find the same diagnostics in the same texts, in whatever order, and parse by
the same parser, which never lets a dot follow a callee. -/
structure Alike (roots : List String) (config : CompilerConfig) (parse : String → Text → Tree)
    (tools : Toolchain (StateM σ)) (tools' : Toolchain (StateM τ)) : Prop where
  answers : ∀ files x x', ((tools.collect files roots config).run x).1.Perm
    ((tools'.collect files roots config).run x').1
  parses : tools.ParsesBy parse
  parses' : tools'.ParsesBy parse
  undotted : ∀ name text, (Source.mk text (parse name text)).CalleesUndotted

theorem Alike.sitesOf_perm (alike : Alike roots config parse tools tools') (h : s.Agrees s')
    {x y : σ} {x' y' : τ} (hfound : (tools.collect s.files roots config).run x = (found, y))
    (hfound' : (tools'.collect s'.files roots config).run x' = (found', y')) :
    (s.sitesOf found).Perm (s'.sitesOf found') := by
  have hperm := alike.answers s.files x x'
  rw [hfound, h.files, hfound'] at hperm
  rw [sitesOf, sitesOf, h.codes]
  exact hperm.filterMap _

theorem Alike.sitesOf_eq_nil_iff (alike : Alike roots config parse tools tools') (h : s.Agrees s')
    {x y : σ} {x' y' : τ} (hfound : (tools.collect s.files roots config).run x = (found, y))
    (hfound' : (tools'.collect s'.files roots config).run x' = (found', y')) :
    s.sitesOf found = [] ↔ s'.sitesOf found' = [] := by
  have hlength := (alike.sitesOf_perm h hfound hfound').length_eq
  rw [← List.length_eq_zero_iff, ← List.length_eq_zero_iff, hlength]

theorem Alike.arranged (alike : Alike roots config parse tools tools') (h : s.Agrees s')
    {x y : σ} {x' y' : τ} {trees trees' : Dict Tree}
    (hround : Round tools roots config number s x found trees y)
    (hround' : Round tools' roots config number s' x' found' trees' y') :
    Pass.Arranged s.files trees trees' (s.sitesOf found) (s'.sitesOf found') := by
  obtain ⟨_, hfound⟩ := hround.collected
  obtain ⟨_, hfound'⟩ := hround'.collected
  rw [hround.trees_eq alike.parses, hround'.trees_eq alike.parses', ← h.files]
  exact Pass.arranged_treesBy alike.undotted s.files (alike.sitesOf_perm h hfound hfound')

theorem Alike.editsApplied_eq (alike : Alike roots config parse tools tools') (h : s.Agrees s')
    {x y : σ} {x' y' : τ} {trees trees' : Dict Tree}
    (hround : Round tools roots config number s x found trees y)
    (hround' : Round tools' roots config number s' x' found' trees' y') :
    (s.outcome number found trees).report.editsApplied =
      (s'.outcome number found' trees').report.editsApplied := by
  have arranged := alike.arranged h hround hround'
  rw [outcome, outcome, ← h.files]
  exact (arranged.report number).editsApplied

/-- Runs of such tools from sessions that agree lead to sessions that agree. The induction is on the
first run, and the second makes the same decision at every turn. -/
theorem Ran.agrees (alike : Alike roots config parse tools tools') {x y : σ} {x' y' : τ}
    {ending ending' : Ending} (h : Ran tools roots config left number s x ending r y)
    (h' : Ran tools' roots config left number s' x' ending' r' y') (hagrees : s.Agrees s') :
    r.Agrees r' := by
  induction h generalizing s' x' with
  | limit =>
    cases h'
    exact hagrees
  | nothingLeft hfound hsites _ =>
    cases h' with
    | nothingLeft _ _ _ => exact hagrees
    | noEdit hround' _ =>
      obtain ⟨_, hfound'⟩ := hround'.collected
      exact absurd ((alike.sitesOf_eq_nil_iff hagrees hfound hfound').mp hsites) hround'.some_site
    | more hround' _ _ =>
      obtain ⟨_, hfound'⟩ := hround'.collected
      exact absurd ((alike.sitesOf_eq_nil_iff hagrees hfound hfound').mp hsites) hround'.some_site
  | noEdit hround hnone =>
    cases h' with
    | nothingLeft hfound' hsites' _ =>
      obtain ⟨_, hfound⟩ := hround.collected
      exact absurd ((alike.sitesOf_eq_nil_iff hagrees hfound hfound').mpr hsites') hround.some_site
    | noEdit hround' _ => exact hagrees.record (alike.arranged hagrees hround hround')
    | more hround' hsome' _ =>
      have hsame := alike.editsApplied_eq hagrees hround hround'
      exact absurd (hsame.symm.trans hnone) hsome'
  | more hround hsome _ ih =>
    cases h' with
    | nothingLeft hfound' hsites' _ =>
      obtain ⟨_, hfound⟩ := hround.collected
      exact absurd ((alike.sitesOf_eq_nil_iff hagrees hfound hfound').mpr hsites') hround.some_site
    | noEdit hround' hnone' =>
      have hsame := alike.editsApplied_eq hagrees hround hround'
      exact absurd (hsame.trans hnone') hsome
    | more hround' _ hran' =>
      exact ih hran' (hagrees.record (alike.arranged hagrees hround hround'))

end

/-- Two toolchains find the same diagnostics whenever they are given the same texts, though maybe in
another order. The trees depend on names and texts alone, and in none of them a callee is followed
by a dot. Then two fresh runs, whatever the texts, the codes and the limit, end with the same texts,
the same number of changes and of passes, and reports that agree one by one. -/
theorem run_in_any_order {σ τ : Type} {tools : Toolchain (StateM σ)}
    {tools' : Toolchain (StateM τ)} {roots : List String} {config : CompilerConfig}
    {parse : String → Text → Tree}
    (hanswers : ∀ files x x', ((tools.collect files roots config).run x).1.Perm
      ((tools'.collect files roots config).run x').1)
    (hparse : tools.ParsesBy parse) (hparse' : tools'.ParsesBy parse)
    (hundotted : ∀ name text, (Source.mk text (parse name text)).CalleesUndotted)
    (files : Files) (codes : List Int) (maxPasses : Int) (x : σ) (x' : τ) :
    let final := ((run tools roots config { files, codes, maxPasses }).run x).1
    let final' := ((run tools' roots config { files, codes, maxPasses }).run x').1
    final.files = final'.files ∧ final.totalChanges = final'.totalChanges ∧
    final.passesRun = final'.passesRun ∧
    List.Forall₂ Report.Agrees final.reports final'.reports := by
  intro final final'
  obtain ⟨_, hran⟩ := exists_ran_run tools roots config { files, codes, maxPasses } x
  obtain ⟨_, hran'⟩ := exists_ran_run tools' roots config { files, codes, maxPasses } x'
  have hagrees : final.Agrees final' :=
    hran.agrees ⟨hanswers, hparse, hparse', hundotted⟩ hran' ⟨rfl, rfl, rfl, rfl, .nil⟩
  exact ⟨hagrees.files, hagrees.totalChanges, hagrees.passesRun, hagrees.reports⟩

/-! Two files with the statement `a.b();`, with a complaint about each of them. -/

/-- The tree of the statement `a.b();`, and for other texts a tree without a node below the top. -/
def callTree (text : Text) : Tree :=
  if text = "a.b();".toList then
    { root := ['a'], segments := [.property .plain ['b'], .call .plain [] []] : AccessChain }.tree
  else .leaf (.other "program") true none 0 text

def callFiles : Files :=
  [("m.ts", "a.b();".toList), ("n.ts", "a.b();".toList)]

/-- Tools that have the given complaints about the two files, until these are edited. -/
def callTools (complaints : List Diagnostic) : Toolchain (StateM Nat) where
  collect files _ _ := do
    modify (· + 1)
    pure (if files = callFiles then complaints else [])
  parse _ text := pure (callTree text)
  note _ := pure ()

/-- The value of `a` may be missing in one file, and that of `a.b` in the other. -/
def callComplaints : List Diagnostic :=
  [⟨2532, some "m.ts", some 0, []⟩, ⟨2722, some "n.ts", some 2, []⟩]

theorem calleesUndotted_callTree (text : Text) :
    (Source.mk text (callTree text)).CalleesUndotted := by
  by_cases htext : text = "a.b();".toList
  · subst htext
    exact Source.calleesUndotted_of_preorder (by decide +kernel)
  · rw [callTree, if_neg htext]
    intro call callee hbelow hkind _
    cases hbelow with
    | refl => cases hkind
    | child hchild _ => cases hchild

/-- The two complaints in both orders. The files come out the same, and are named in the order of
the complaints. -/
theorem both_files_guarded_in_either_order :
    let final := ((run (callTools callComplaints) [] {} { files := callFiles }).run 0).1
    let final' := ((run (callTools callComplaints.reverse) [] {} { files := callFiles }).run 5).1
    final.files = [("m.ts", "a?.b();".toList), ("n.ts", "a.b?.();".toList)] ∧
    final'.reports.map Report.filesChanged = [["n.ts", "m.ts"]] ∧
    final.files = final'.files ∧ final.totalChanges = final'.totalChanges ∧
    final.passesRun = final'.passesRun ∧
    List.Forall₂ Report.Agrees final.reports final'.reports := by
  intro final final'
  have hanswers : ∀ files x x',
      (((callTools callComplaints).collect files [] {}).run x).1.Perm
        (((callTools callComplaints.reverse).collect files [] {}).run x').1 := by
    intro files x x'
    show (if files = callFiles then _ else _ : List Diagnostic).Perm
      (if files = callFiles then _ else _)
    split
    · exact (List.reverse_perm _).symm
    · exact .refl _
  have hfiles : final.files = [("m.ts", "a?.b();".toList), ("n.ts", "a.b?.();".toList)] := by
    decide +kernel
  have hreports : final'.reports.map Report.filesChanged = [["n.ts", "m.ts"]] := by
    decide +kernel
  exact ⟨hfiles, hreports, run_in_any_order hanswers (fun _ _ _ => rfl) (fun _ _ _ => rfl)
    (fun _ text => calleesUndotted_callTree text) callFiles _ _ 0 5⟩

end Session

end ChainGuard
