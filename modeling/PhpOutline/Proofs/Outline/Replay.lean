import Mathlib.Data.List.Induction
import PhpOutline.Outline

/-!
# Outlines without a snapshot

The survey of a file keeps a snapshot of the namespace and the imports, and drops it when either of
them changes. The snapshot is never stale: the outline is the one that is made when every
declaration reads the namespace and the imports anew.

## Main definitions

* `Outline.apply`, `Outline.replay`: the outline after some events, without any snapshot.
* `Survey.IsCurrent`: the invariant of the snapshot.

## Main statements

* `Survey.IsCurrent.apply`, `Survey.isCurrent_ofEvents`: a snapshot is the context in effect.
* `Outline.ofTable_eq_replay`: the outline of a file needs no snapshot.
-/

namespace PhpOutline

namespace Outline

/-- A declaration at a site, in the present context. -/
def declared (o : Outline) (site : Site) : Declared :=
  ⟨o.context.qualify site.shortName, site.keyword, site.span, o.context⟩

/-- The outline after one more event. A namespace begins without imports. -/
def apply (o : Outline) : Event → Outline
  | .entersNamespace name =>
    { o with context := ⟨name, []⟩, namespaces := o.namespaces ++ name.toList }
  | .imports i =>
    { o with
      context := { o.context with imports := o.context.imports.bind i.key i.name }
      uses := o.uses.bind i.key i.name }
  | .declaresType site => { o with types := o.types ++ [o.declared site] }
  | .declaresFunction site => { o with functions := o.functions ++ [o.declared site] }

/-- The outline after a list of events. -/
def replay (o : Outline) (events : List Event) : Outline := events.foldl apply o

@[simp] theorem replay_nil (o : Outline) : o.replay [] = o := rfl

@[simp] theorem replay_cons (o : Outline) (e : Event) (es : List Event) :
    o.replay (e :: es) = (o.apply e).replay es := rfl

theorem replay_append (o : Outline) (es fs : List Event) :
    o.replay (es ++ fs) = (o.replay es).replay fs := by
  simp [replay]

end Outline

namespace Survey

/-- A snapshot, where there is one, is the context in effect. -/
def IsCurrent (s : Survey) : Prop := ∀ context ∈ s.snapshot, context = s.outline.context

theorem isCurrent_nil : IsCurrent {} := by
  intro context h
  simp at h

/-- The context for a declaration is the one in effect, and the survey knows no less behind it. -/
theorem IsCurrent.capture {s : Survey} (h : s.IsCurrent) :
    s.capture.1 = s.outline.context ∧ s.capture.2.outline = s.outline ∧
      s.capture.2.IsCurrent := by
  cases hs : s.snapshot with
  | none =>
    have hcapture : s.capture =
        (s.outline.context, { s with snapshot := some s.outline.context }) := by
      simp [Survey.capture, hs, outline]
    rw [hcapture]
    refine ⟨rfl, rfl, ?_⟩
    intro context hc
    exact (Option.some.inj hc).symm
  | some context =>
    have hcapture : s.capture = (context, s) := by
      simp [Survey.capture, hs]
    rw [hcapture]
    exact ⟨h context hs, rfl, h⟩

/-- An event is entered as without a snapshot, and leaves no stale one behind. -/
theorem IsCurrent.apply {s : Survey} (h : s.IsCurrent) (e : Event) :
    (s.apply e).outline = s.outline.apply e ∧ (s.apply e).IsCurrent := by
  obtain ⟨hcontext, houtline, hcurrent⟩ := h.capture
  have htypes : s.capture.2.types = s.types := congrArg Outline.types houtline
  have hfunctions : s.capture.2.functions = s.functions := congrArg Outline.functions houtline
  cases e with
  | entersNamespace name => exact ⟨rfl, by intro context hc; simp [Survey.apply] at hc⟩
  | imports i => exact ⟨rfl, by intro context hc; simp [Survey.apply] at hc⟩
  | declaresType site =>
    constructor
    · change { s.capture.2.outline with
        types := s.capture.2.types ++ [site.declaredIn s.capture.1] } = _
      rw [houtline, htypes, hcontext]
      rfl
    · exact hcurrent
  | declaresFunction site =>
    constructor
    · change { s.capture.2.outline with
        functions := s.capture.2.functions ++ [site.declaredIn s.capture.1] } = _
      rw [houtline, hfunctions, hcontext]
      rfl
    · exact hcurrent

/-- Along a file the survey is the replay without a snapshot, and its snapshot is never stale. -/
theorem isCurrent_ofEvents (events : List Event) :
    (ofEvents events).outline = Outline.replay {} events ∧ (ofEvents events).IsCurrent := by
  -- One more event is entered in the survey that stands behind all the earlier ones.
  induction events using List.reverseRecOn with
  | nil => exact ⟨rfl, isCurrent_nil⟩
  | append_singleton events e ih =>
    obtain ⟨houtline, hcurrent⟩ := ih.2.apply e
    rw [ofEvents_concat, Outline.replay_append, ← ih.1]
    exact ⟨houtline, hcurrent⟩

theorem outline_ofEvents (events : List Event) :
    (ofEvents events).outline = Outline.replay {} events :=
  (isCurrent_ofEvents events).1

end Survey

/-- The outline of a file is the replay of what was found in it. -/
theorem Outline.ofTable_eq_replay (t : TokenTable) :
    ofTable t = replay {} (Event.discover t) :=
  Survey.outline_ofEvents _

end PhpOutline
