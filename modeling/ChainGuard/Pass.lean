import ChainGuard.Diagnostic
import ChainGuard.Guard

/-!
# One pass

A pass takes the sites that the compiler reports and the syntax trees of their files, decides on
each site, and edits the files.

* `judge` decides on one site: its file is unknown, it is left to a human, or it gets an edit.
* `batches` collects the edits by file, in the order in which the files get their first edit.
* `run` edits every file once, with repeated edits counted once, and accounts for the pass.
-/

namespace ChainGuard

/-- The account of one pass. -/
structure Report where
  number : Nat
  diagnostics : Nat
  editsApplied : Nat
  skipped : Nat
  filesChanged : List String
  deriving DecidableEq

/-- The decision on a site. -/
inductive Verdict where
  | unknownFile
  | leftAlone
  | fix (edit : Edit)
  deriving DecidableEq

namespace Pass

/-- The decision on a site, given the texts and the syntax trees of the files. -/
def judge (files : Files) (trees : Dict Tree) (site : Site) : Verdict :=
  match files.get? site.file, trees.get? site.file with
  | none, _ => .unknownFile
  | some _, none => .leftAlone
  | some text, some tree =>
    match (Source.mk text tree).fix? site.code site.offset with
    | some edit => .fix edit
    | none => .leftAlone

/-- The files whose trees a pass needs: those of the sites, as far as their text is known, in the
order of first sight. -/
def filesToParse (files : Files) (sites : List Site) : List (String × Text) :=
  ((sites.map Site.file).eraseDups).filterMap fun name =>
    (files.get? name).map fun text => (name, text)

def batches (judged : List (Site × Verdict)) : Dict (List Edit) :=
  judged.foldl (fun acc entry =>
    match entry.2 with
    | .fix edit => acc.set entry.1.file ((acc.get? entry.1.file).getD [] ++ [edit])
    | _ => acc) []

/-- The files edited so far in a pass, the number of edits, and the names of the files that
changed. -/
structure Edited where
  files : Files
  edits : Nat := 0
  changed : List String := []

/-- Edit one file. A file that comes out unchanged counts no edits. -/
def editFile (acc : Edited) (name : String) (edits : List Edit) : Edited :=
  match acc.files.get? name with
  | none => acc
  | some before =>
    let batch := Edit.distinct edits
    let after := Edit.applyAll before batch
    if after = before then acc
    else ⟨acc.files.set name after, acc.edits + batch.length, acc.changed ++ [name]⟩

def editFiles (files : Files) (edits : Dict (List Edit)) : Edited :=
  edits.foldl (fun acc entry => editFile acc entry.1 entry.2) ⟨files, 0, []⟩

/-- What a pass comes to: the new texts, the account, and the sites left to a human. -/
structure Outcome where
  files : Files
  report : Report
  left : List Site

def run (number : Nat) (files : Files) (trees : Dict Tree) (sites : List Site) : Outcome :=
  let judged := sites.map fun site => (site, judge files trees site)
  let done := editFiles files (batches judged)
  { files := done.files
    report :=
      { number
        diagnostics := sites.length
        editsApplied := done.edits
        skipped := (judged.filter fun entry =>
          match entry.2 with
          | .fix _ => false
          | _ => true).length
        filesChanged := done.changed }
    left := (judged.filter fun entry => entry.2 = .leftAlone).map Prod.fst }

end Pass

end ChainGuard
