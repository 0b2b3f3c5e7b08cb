import ChainGuard.Proofs.Guard
import ChainGuard.Proofs.Tree

/-!
# Accesses that carry the marker

That an access carries the marker is known from its children. That it needs no second one is seen
from a few characters of the text. The two agree where the marker stands close to what it guards:
no dot before the property, the bracket right behind the marker, the marker right behind the callee.

1. `Source.MarkerFits`: a marker in a tree that fits the text. `Source.MarkerClose`: a marker that
   stands close. `Source.marker_is_repeated`: that it does cannot be dropped.
2. `guard?_eq_none_of_marker`: an access that carries a close marker.
   Main statement: `Source.marked_access_stays`.
-/

namespace ChainGuard

namespace Tree

/-- The node is the marker of its parent. -/
def isMarker (t : Tree) : Bool :=
  t.kind == .optionalChain || t.kind == .optionalToken

theorem hasMarker_iff {t : Tree} : t.hasMarker = true ↔ ∃ c ∈ t.children, c.isMarker = true :=
  List.any_eq_true

end Tree

namespace Source

/-! ## 1. Markers in trees -/

/-- The marker of an access spans the text `?.`, behind the base and in front of the property, the
bracket or the arguments. -/
structure MarkerFits (s : Source) (t marker : Tree) : Prop where
  text : s.textOf marker = Text.marker
  after_base : ∀ base ∈ t.base?, s.stopOf base ≤ s.startOf marker
  before_property : t.shape = .memberAccess →
    ∀ property ∈ t.field? .property, s.stopOf marker ≤ s.startOf property
  before_bracket : t.shape = .indexedAccess →
    ∃ bracket ∈ t.children, s.textOf bracket = ['['] ∧ s.stopOf marker ≤ s.startOf bracket
  before_arguments : t.shape = .invocation →
    ∀ arguments ∈ t.field? .arguments, s.stopOf marker ≤ s.startOf arguments

/-- The marker stands so that the search for the access meets it: no dot comes between it and the
property, the bracket is the first behind the base and comes right behind it, or it comes right
behind the callee. -/
structure MarkerClose (s : Source) (t marker : Tree) : Prop where
  member : t.shape = .memberAccess → ∀ property ∈ t.field? .property,
    ∀ i < s.startOf property, s.stopOf marker ≤ i → s.text[i]? ≠ some '.'
  indexed : t.shape = .indexedAccess → s.text[s.stopOf marker]? = some '[' ∧
    ∀ base ∈ t.base?, ∀ i < s.startOf marker, s.stopOf base ≤ i → s.text[i]? ≠ some '['
  invocation : t.shape = .invocation → ∀ base ∈ t.base?, s.startOf marker = s.stopOf base

instance (s : Source) (t marker : Tree) : Decidable (s.MarkerFits t marker) :=
  decidable_of_iff
    (s.textOf marker = Text.marker ∧ (∀ base ∈ t.base?, s.stopOf base ≤ s.startOf marker) ∧
      (t.shape = .memberAccess →
        ∀ property ∈ t.field? .property, s.stopOf marker ≤ s.startOf property) ∧
      (t.shape = .indexedAccess →
        ∃ bracket ∈ t.children, s.textOf bracket = ['['] ∧ s.stopOf marker ≤ s.startOf bracket) ∧
      (t.shape = .invocation →
        ∀ arguments ∈ t.field? .arguments, s.stopOf marker ≤ s.startOf arguments))
    ⟨fun ⟨h₁, h₂, h₃, h₄, h₅⟩ => ⟨h₁, h₂, h₃, h₄, h₅⟩,
      fun ⟨h₁, h₂, h₃, h₄, h₅⟩ => ⟨h₁, h₂, h₃, h₄, h₅⟩⟩

instance (s : Source) (t marker : Tree) : Decidable (s.MarkerClose t marker) :=
  decidable_of_iff
    ((t.shape = .memberAccess → ∀ property ∈ t.field? .property,
        ∀ i < s.startOf property, s.stopOf marker ≤ i → s.text[i]? ≠ some '.') ∧
      (t.shape = .indexedAccess → s.text[s.stopOf marker]? = some '[' ∧
        ∀ base ∈ t.base?, ∀ i < s.startOf marker, s.stopOf base ≤ i → s.text[i]? ≠ some '[') ∧
      (t.shape = .invocation → ∀ base ∈ t.base?, s.startOf marker = s.stopOf base))
    ⟨fun ⟨h₁, h₂, h₃⟩ => ⟨h₁, h₂, h₃⟩, fun ⟨h₁, h₂, h₃⟩ => ⟨h₁, h₂, h₃⟩⟩

def blankBehindMarker : Source where
  text := "a?. [k]".toList
  root :=
    .node ⟨.subscriptExpression, 0, 7, true, none⟩
      [.node ⟨.identifier, 0, 1, true, some .object⟩ [],
        .node ⟨.optionalChain, 1, 3, true, none⟩ [], .node ⟨.other "[", 4, 5, false, none⟩ [],
        .node ⟨.identifier, 5, 6, true, none⟩ [], .node ⟨.other "]", 6, 7, false, none⟩ []]

/-- The invocation `f ?.()`, with a blank in front of the marker. -/
def blankBeforeMarker : Source where
  text := "f ?.()".toList
  root :=
    .node ⟨.callExpression, 0, 6, true, none⟩
      [.node ⟨.identifier, 0, 1, true, some .function⟩ [],
        .node ⟨.optionalToken, 2, 4, false, none⟩ [],
        .node ⟨.other "arguments", 4, 6, true, some .arguments⟩ []]

/-- The access `a?./*.*/b`, with a dot in a comment behind the marker. -/
def dotBehindMarker : Source where
  text := "a?./*.*/b".toList
  root :=
    .node ⟨.memberExpression, 0, 9, true, none⟩
      [.node ⟨.identifier, 0, 1, true, some .object⟩ [],
        .node ⟨.optionalChain, 1, 3, true, none⟩ [], .node ⟨.comment, 3, 8, true, none⟩ [],
        .node ⟨.other "property_identifier", 8, 9, true, some .property⟩ []]

/-- A marker that fits but does not stand close is not seen: the access gets a second one. This
happens in all three forms of access. -/
theorem marker_is_repeated :
    ∀ s ∈ [dotBehindMarker, blankBehindMarker, blankBeforeMarker],
      s.root.hasMarker = true ∧ (∀ c ∈ s.root.children, c.isMarker = true →
        s.MarkerFits s.root c) ∧ (s.guard? (.ofRoot s.root)).isSome = true := by
  decide +kernel

/-! ## 2. Close markers -/

section

variable {s : Source} {t marker : Tree}

theorem MarkerFits.getElem? (h : s.MarkerFits t marker) :
    s.text[s.startOf marker]? = some '?' ∧ s.text[s.startOf marker + 1]? = some '.' :=
  Text.getElem?_of_slice_eq_marker h.text

/-- Within a marker there are no further characters. -/
theorem MarkerFits.getElem?_eq_none (h : s.MarkerFits t marker) {i : Nat}
    (hlo : s.startOf marker + 2 ≤ i) (hhi : i < s.stopOf marker) : s.text[i]? = none := by
  have hslice := Text.getElem?_slice s.text (s.startOf marker) (s.stopOf marker)
    (i - s.startOf marker)
  rw [Nat.add_sub_cancel' (by omega), if_pos hhi] at hslice
  rw [← hslice]
  show (s.textOf marker)[i - s.startOf marker]? = none
  rw [h.text, List.getElem?_eq_none_iff]
  show 2 ≤ _
  omega

theorem MarkerFits.startOf_add_one_lt (h : s.MarkerFits t marker) :
    s.startOf marker + 1 < s.stopOf marker := by
  have hdot : (s.textOf marker)[1]? = some '.' := by
    rw [h.text]
    rfl
  exact (Text.getElem?_of_slice hdot).1

/-- In front of a character of the text a marker has exactly its two characters. -/
theorem MarkerFits.stopOf_eq (h : s.MarkerFits t marker) {c : Char}
    (hc : s.text[s.stopOf marker]? = some c) : s.stopOf marker = s.startOf marker + 2 := by
  have hlt := h.startOf_add_one_lt
  refine Nat.le_antisymm (Nat.le_of_not_lt fun hlonger => ?_) hlt
  have hnone := h.getElem?_eq_none (Nat.le_refl _) hlonger
  rw [List.getElem?_eq_none_iff] at hnone
  obtain ⟨hlength, -⟩ := List.getElem?_eq_some_iff.mp hc
  omega

theorem slice_marker_of_fits (h : s.MarkerFits t marker) :
    s.text.slice (s.startOf marker) (s.startOf marker + 2) = Text.marker :=
  Text.slice_eq_marker h.getElem?.1 h.getElem?.2

/-- An access that carries a close marker gets no second one. Of a property the last dot is that of
the marker, as no dot comes behind it. Of an index the first bracket is the one behind the marker,
whose own characters are no brackets. -/
theorem guard?_eq_none_of_marker {f : Focus} (hfits : s.MarkerFits f.here marker)
    (hclose : s.MarkerClose f.here marker) : s.guard? f = none := by
  rw [Option.eq_none_iff_forall_ne_some]
  intro e he
  obtain ⟨base, hbase, -, -, -, -, guarding⟩ := guard?_guarding he
  have hbefore := hfits.after_base base hbase
  have hstop := hfits.startOf_add_one_lt
  cases guarding with
  | @member property dot shape field after_base before_property found last unmarked =>
    have hproperty := hfits.before_property shape property field
    have hle : s.startOf marker + 1 ≤ dot :=
      Nat.le_of_not_lt fun hlt => last _ hlt (by omega) hfits.getElem?.2
    rcases Nat.eq_or_lt_of_le hle with rfl | hlt
    · exact unmarked ⟨Nat.succ_pos _, slice_marker_of_fits hfits⟩
    · rcases Nat.lt_or_ge dot (s.stopOf marker) with hin | hbehind
      · rw [hfits.getElem?_eq_none hlt hin] at found
        cases found
      · exact hclose.member shape property field dot before_property hbehind found
  | @indexed bracket shape after_base before_end found first unmarked =>
    obtain ⟨hbracket, hnone⟩ := hclose.indexed shape
    have hstop := hfits.stopOf_eq hbracket
    have hle : bracket ≤ s.stopOf marker :=
      Nat.le_of_not_lt fun hlt => first _ (by omega) hlt hbracket
    rcases Nat.lt_or_ge bracket (s.startOf marker) with hlt | hge
    · exact hnone base hbase bracket hlt after_base found
    · obtain rfl | rfl | rfl : bracket = s.startOf marker ∨ bracket = s.startOf marker + 1 ∨
          bracket = s.startOf marker + 2 := by omega
      · rw [hfits.getElem?.1] at found
        cases found
      · rw [hfits.getElem?.2] at found
        cases found
      · exact unmarked (slice_marker_of_fits hfits)
  | invocation shape not_new plain unmarked =>
    have hat := hclose.invocation shape base hbase
    have hmarker : Text.hasMarker (s.text.slice (s.stopOf base - 2) (s.stopOf base + 2)) = true :=
      Text.hasMarker_slice hfits.getElem?.1 hfits.getElem?.2 (by omega) (by omega)
    rw [unmarked] at hmarker
    cases hmarker

end

/-- The markers of the node, if it is an access, fit and stand close. -/
def MarkersClose (s : Source) (t : Tree) : Prop :=
  t.isAccess = true → ∀ marker ∈ t.children, marker.isMarker = true →
    s.MarkerFits t marker ∧ s.MarkerClose t marker

theorem guard?_of_not_isAccess {s : Source} {f : Focus} (h : f.here.isAccess = false) :
    s.guard? f = none := by
  rw [Option.eq_none_iff_forall_ne_some]
  intro e he
  obtain ⟨base, -, -, -, -, -, guarding⟩ := guard?_guarding he
  have hshape : f.here.shape = .other := by
    simpa [Tree.isAccess] using h
  cases guarding <;> simp_all

/-- A node that carries a marker, and whose markers stand close, is left alone. So a diagnostic gets
no edit if its nearest access is such a node and no access is built on it.

A diagnostic about an invocation is apart: its target is the invocation around the place and not the
nearest access, so there it is the invocation that has to carry the marker. -/
theorem marked_access_stays (s : Source) :
    (∀ f : Focus, s.MarkersClose f.here → f.here.hasMarker = true → s.guard? f = none) ∧
    (∀ code offset token near, code ≠ invokeCode → s.tokenAt? offset = some token →
      token.nearestAccess? = some near → s.MarkersClose near.here → near.here.hasMarker = true →
      near.above.head?.any Above.isBuiltOn = false → s.fix? code offset = none) ∧
    ∀ offset token call, s.tokenAt? offset = some token → token.enclosingCall? = some call →
      s.MarkersClose call.here → call.here.hasMarker = true → s.fix? invokeCode offset = none := by
  have hstays : ∀ f : Focus, s.MarkersClose f.here → f.here.hasMarker = true →
      s.guard? f = none := by
    intro f hf hmarker
    obtain ⟨marker, hmem, hmarker⟩ := Tree.hasMarker_iff.mp hmarker
    cases haccess : f.here.isAccess with
    | false => exact guard?_of_not_isAccess haccess
    | true =>
      obtain ⟨hfits, hclose⟩ := hf haccess marker hmem hmarker
      exact guard?_eq_none_of_marker hfits hclose
  have hfix : ∀ {code offset token target}, s.tokenAt? offset = some token →
      token.target? code = some target → s.MarkersClose target.here →
      target.here.hasMarker = true → s.fix? code offset = none := by
    intro code offset token target htoken htarget hclose hmarker
    rw [fix?, htoken, Option.bind_some, htarget, Option.bind_some]
    exact hstays target hclose hmarker
  refine ⟨hstays, ?_, ?_⟩
  · intro code offset token near hcode htoken hnear hclose hmarker hbuilt
    refine hfix htoken ?_ hclose hmarker
    rw [Focus.target?, if_neg hcode, Focus.nullishAccess?, hnear]
    dsimp only
    rw [if_pos hmarker]
    obtain ⟨here, above⟩ := near
    cases above with
    | nil => rfl
    | cons p rest => exact if_neg (Bool.not_eq_true _ ▸ hbuilt)
  · intro offset token call htoken hcall hclose hmarker
    refine hfix htoken ?_ hclose hmarker
    rw [Focus.target?, if_pos rfl, hcall]

def guardedAccess : Source where
  text := "a?.b;".toList
  root :=
    .node ⟨.other "program", 0, 5, true, none⟩
      [.node ⟨.other "expression_statement", 0, 5, true, none⟩
        [.node ⟨.memberExpression, 0, 4, true, none⟩
          [.node ⟨.identifier, 0, 1, true, some .object⟩ [],
            .node ⟨.optionalChain, 1, 3, true, none⟩ [],
            .node ⟨.other "property_identifier", 3, 4, true, some .property⟩ []],
          .node ⟨.other ";", 4, 5, false, none⟩ []]]

/-- In `a?.b;` the complaint about `a` comes to nothing. -/
theorem guarded_access_stays :
    ∃ token near, guardedAccess.tokenAt? 0 = some token ∧ token.nearestAccess? = some near ∧
      guardedAccess.MarkersClose near.here ∧ near.here.hasMarker = true ∧
      near.above.head?.any Above.isBuiltOn = false ∧ guardedAccess.fix? 2532 0 = none := by
  obtain ⟨token, near, htoken, hnear, hclose, hmarker, hbuilt⟩ : ∃ token near,
      guardedAccess.tokenAt? 0 = some token ∧ token.nearestAccess? = some near ∧
      (∀ marker ∈ near.here.children, marker.isMarker = true →
        guardedAccess.MarkerFits near.here marker ∧ guardedAccess.MarkerClose near.here marker) ∧
      near.here.hasMarker = true ∧ near.above.head?.any Above.isBuiltOn = false :=
    ⟨_, _, rfl, rfl, by decide +kernel, rfl, rfl⟩
  refine ⟨token, near, htoken, hnear, fun _ => hclose, hmarker, hbuilt, ?_⟩
  exact (marked_access_stays guardedAccess).2.1 2532 0 token near (by decide) htoken hnear
    (fun _ => hclose) hmarker hbuilt

end Source

end ChainGuard
