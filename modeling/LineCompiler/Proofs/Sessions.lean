import LineCompiler.Proofs.Correctness
import LineCompiler.Proofs.Names

/-!
# The table over several runs

A compilation can be run again and again. Every run opens its program anew, so it declares the
predeclared variables once more, and goes on reading where the run before it has stopped. This
module follows the table through all of that, also in the middle of a run.

* `Table.Orderly` is the invariant of the table. `Table.Orderly.opening` and `Table.Orderly.acts`
  are the steps over the two parts of a run.
* `Compilation.Settled` is what holds between two runs, and `Compilation.Settled.run` the step from
  one to the next.
* `table_over_runs` is the result for any number of runs.
-/

namespace LineCompiler

/-! ## The invariant -/

namespace Job

variable {jobs : List Job} {e : Emitter}

theorem names_mono_effects (jobs : List Job) (e : Emitter) :
    e.table.names <+: (effects jobs e).state.table.names := by
  apply effects_induction (P := fun t : Table => e.table.names <+: t.names)
  · intro job _ t t' hchanges hmono
    exact hmono.trans hchanges.names_mono
  · exact List.prefix_refl _

theorem names_mono_append (jobs more : List Job) (e : Emitter) :
    (effects jobs e).state.table.names <+: (effects (jobs ++ more) e).state.table.names := by
  rw [effects_append]
  apply Effect.state_andThen
    (P := fun f : Emitter => (effects jobs e).state.table.names <+: f.table.names)
  · exact List.prefix_refl _
  · intro _
    exact names_mono_effects more _

/-- The jobs of an opening leave every variable as it is and where it is. -/
theorem vars_mono_opening (hjobs : jobs <+: Emit.openingJobs) (e : Emitter) :
    e.table.vars <+: (effects jobs e).state.table.vars := by
  apply effects_induction (P := fun t : Table => e.table.vars <+: t.vars)
  · intro job hjob t t' hchanges hmono
    obtain ⟨pair, -, rfl⟩ := List.mem_map.mp (hjobs.mem hjob)
    cases hchanges with
    | same => exact hmono
    | predeclare name reg => exact hmono.trans (List.prefix_append _ _)
  · exact List.prefix_refl _

/-- They add each name at most once. -/
theorem names_opening (pairs : List (String × Nat)) (e : Emitter) :
    (Emit.openingEffect pairs e).state.table.names <+: e.table.names ++ pairs.map Prod.fst := by
  induction pairs generalizing e with
  | nil =>
    rw [List.map_nil, List.append_nil]
    exact List.prefix_refl _
  | cons pair rest ih =>
    rcases Nat.lt_or_ge e.table.size e.table.config.capacity with hroom | hfull
    · have hrest := ih { e with table := e.table.extend pair.1 0 }
      rw [Table.names_extend, List.append_assoc] at hrest
      rw [Emit.openingEffect_of_room hroom, Effect.andThen_of_ok rfl]
      exact hrest
    · rw [Emit.openingEffect_of_full hfull]
      exact List.prefix_append _ _

theorem count_names_opening_le (hjobs : jobs <+: Emit.openingJobs) (e : Emitter) (name : String) :
    (effects jobs e).state.table.names.count name ≤
      e.table.names.count name + Emit.predeclared.count name := by
  have htake := List.prefix_iff_eq_take.mp hjobs
  rw [Emit.openingJobs, ← List.map_take] at htake
  have hnames := names_opening (Emit.predeclared.zipIdx.take jobs.length) e
  rw [← effects_opening, ← htake, List.map_take, List.zipIdx_map_fst] at hnames
  calc (effects jobs e).state.table.names.count name
      ≤ (e.table.names ++ Emit.predeclared.take jobs.length).count name :=
        hnames.sublist.count_le name
    _ = e.table.names.count name + (Emit.predeclared.take jobs.length).count name :=
        List.count_append
    _ ≤ e.table.names.count name + Emit.predeclared.count name :=
        Nat.add_le_add_left ((List.take_sublist _ _).count_le name) _

/-- The jobs of statements add a name only if it is not there. -/
theorem count_names_acts_le (hjobs : ∀ job ∈ jobs, job = start ∨ ∃ a, job = act a) (e : Emitter)
    (name : String) :
    (effects jobs e).state.table.names.count name ≤ max 1 (e.table.names.count name) := by
  apply effects_induction
    (P := fun t : Table => t.names.count name ≤ max 1 (e.table.names.count name))
  · intro job hjob t t' hchanges hle
    rcases hjobs job hjob with rfl | ⟨a, rfl⟩
    · cases hchanges
      exact hle
    · have hcount := hchanges.count_names_le name
      omega
  · exact Nat.le_max_right _ _

/-- All names come from the jobs. -/
theorem isName_effects (hjobs : ∀ job ∈ jobs, ∀ name, job.name? = some name → Token.IsName name)
    (h : ∀ name ∈ e.table.names, Token.IsName name) :
    ∀ name ∈ (effects jobs e).state.table.names, Token.IsName name := by
  apply effects_induction (P := fun t : Table => ∀ name ∈ t.names, Token.IsName name) _ h
  intro job hjob t t' hchanges hnames name hname
  rcases hchanges.mem_names hname with hold | hnew
  · exact hnames name hold
  · exact hjobs job hjob name hnew

end Job

/-- A table after a number of runs: no name stands twice in it except for the predeclared ones, and
none of those more often than once for each run. Every name is a word of legal length. -/
structure Table.Orderly (runs : Nat) (t : Table) : Prop where
  legal : ∀ name ∈ t.names, Token.IsName name
  often : ∀ name ∈ Emit.predeclared, t.names.count name ≤ runs
  once : ∀ name, name ∉ Emit.predeclared → t.names.count name ≤ 1

theorem Table.orderly_empty (config : Config) : Orderly 0 { config } where
  legal := by
    intro name hname
    cases hname
  often := by
    intro name _
    exact Nat.le_refl 0
  once := by
    intro name _
    exact Nat.zero_le 1

theorem Emit.isName_openingJobs :
    ∀ job ∈ openingJobs, ∀ name, job.name? = some name → Token.IsName name := by
  intro job hjob name hname
  simp only [openingJobs, predeclared, List.zipIdx_cons, List.zipIdx_nil, List.map_cons,
    List.map_nil, List.mem_cons, List.not_mem_nil, or_false] at hjob
  rcases hjob with rfl | rfl | rfl
  · cases hname
    exact Token.isName_clip (c := 'x') rfl []
  · cases hname
    exact Token.isName_clip (c := 'y') rfl []
  · cases hname
    exact Token.isName_clip (c := 'z') rfl []

namespace Script

theorem jobs_cases (script : Script) : ∀ job ∈ script.jobs, job = .start ∨ ∃ a, job = .act a := by
  induction script with
  | ends cursor | faulty fault cursor =>
    intro job hjob
    cases hjob
  | statement line tree cursor rest ih =>
    intro job hjob
    rcases List.mem_append.mp hjob with htree | hrest
    · rcases List.mem_cons.mp htree with rfl | hact
      · exact .inl rfl
      · obtain ⟨a, -, rfl⟩ := List.mem_map.mp hact
        exact .inr ⟨a, rfl⟩
    · exact ih job hrest

theorem WellNamed.isName_jobs {script : Script} (h : script.WellNamed) :
    ∀ job ∈ script.jobs, ∀ name, job.name? = some name → Token.IsName name := by
  induction script with
  | ends cursor | faulty fault cursor =>
    intro job hjob
    cases hjob
  | statement line tree cursor rest ih =>
    obtain ⟨htree, -, hrest⟩ := h
    intro job hjob name hname
    rcases List.mem_append.mp hjob with hjob | hjob
    · rcases List.mem_cons.mp hjob with rfl | hact
      · cases hname
      · obtain ⟨a, ha, rfl⟩ := List.mem_map.mp hact
        exact htree name (Expr.name_mem_of_actions hname ha)
    · exact ih hrest job hjob name hname

end Script

namespace Table.Orderly

variable {runs : Nat} {e : Emitter} {jobs : List Job}

theorem opening (h : e.table.Orderly runs) (hjobs : jobs <+: Emit.openingJobs) :
    (Job.effects jobs e).state.table.Orderly (runs + 1) where
  legal := by
    apply Job.isName_effects _ h.legal
    intro job hjob
    exact Emit.isName_openingJobs job (hjobs.mem hjob)
  often := by
    intro name hname
    have hcount := Job.count_names_opening_le hjobs e name
    have honce : Emit.predeclared.count name = 1 := List.count_eq_one_of_mem (by decide) hname
    have hold := h.often name hname
    omega
  once := by
    intro name hname
    have hcount := Job.count_names_opening_le hjobs e name
    have hnone : Emit.predeclared.count name = 0 := List.count_eq_zero_of_not_mem hname
    have hold := h.once name hname
    omega

theorem acts (h : e.table.Orderly (runs + 1))
    (hacts : ∀ job ∈ jobs, job = .start ∨ ∃ a, job = .act a)
    (hnames : ∀ job ∈ jobs, ∀ name, job.name? = some name → Token.IsName name) :
    (Job.effects jobs e).state.table.Orderly (runs + 1) where
  legal := Job.isName_effects hnames h.legal
  often := by
    intro name hname
    have hcount := Job.count_names_acts_le hacts e name
    have hold := h.often name hname
    omega
  once := by
    intro name hname
    have hcount := Job.count_names_acts_le hacts e name
    have hold := h.once name hname
    omega

end Table.Orderly

/-! ## The predeclared variables -/

/-- The predeclared variables own the first slots, and their names stand for these. So the lines
that end a program load the very variables that statements use. -/
structure Table.Predeclares (t : Table) : Prop where
  named : ∀ pair ∈ Emit.predeclared.zipIdx, t.names[pair.2]? = some pair.1
  found : ∀ pair ∈ Emit.predeclared.zipIdx, t.slot? pair.1 = some pair.2
  closing : Emit.closingProgram t = (Emit.predeclared.zipIdx.map fun pair =>
    .mov (.reg pair.2) (.mem (t.address ((t.slot? pair.1).getD t.size)))) ++ [.exit 0]

theorem Table.predeclares_of_names {t : Table} (h : Emit.predeclared <+: t.names) :
    t.Predeclares where
  named := by
    obtain ⟨rest, hrest⟩ := h
    intro pair hpair
    have hpair : Emit.predeclared[pair.2]? = some pair.1 :=
      List.mem_zipIdx_iff_getElem?.mp hpair
    obtain ⟨hlt, -⟩ := List.getElem?_eq_some_iff.mp hpair
    rw [← hrest, List.getElem?_append_left hlt, hpair]
  found := slot?_predeclared h
  closing := by
    have hfound := slot?_predeclared h
    have hslots : List.range Emit.predeclared.length = Emit.predeclared.zipIdx.map Prod.snd := by
      rw [List.zipIdx_map_snd, List.range_eq_range']
    rw [Emit.closingProgram, List.append_cancel_right_eq, hslots, List.map_map]
    apply List.map_congr_left
    intro pair hpair
    rw [Function.comp_apply, hfound pair hpair, Option.getD_some]

/-- The second table has all variables of the first one, with the same values, and finds them where
they were. -/
structure Table.Preserves (t t' : Table) : Prop where
  values : ∀ slot value, t.value? slot = some value → t'.value? slot = some value
  slots : ∀ name slot, t.slot? name = some slot → t'.slot? name = some slot

theorem Table.preserves_of_vars {t t' : Table} (h : t.vars <+: t'.vars) : t.Preserves t' where
  values := by
    intro slot value hvalue
    obtain ⟨var, hvar, rfl⟩ := Option.map_eq_some_iff.mp hvalue
    obtain ⟨hlt, -⟩ := List.getElem?_eq_some_iff.mp hvar
    obtain ⟨rest, hrest⟩ := h
    rw [value?, ← hrest, List.getElem?_append_left hlt, hvar, Option.map_some]
  slots := by
    intro name slot hslot
    exact slot?_mono (h.map Var.name) hslot

/-! ## Run after run -/

namespace Compilation

/-- The compilation after a number of runs. -/
def after (c : Compilation) : Nat → Compilation
  | 0 => c
  | k + 1 => (c.after k).run.2

/-- What holds of a compilation between two runs. -/
structure Settled (runs : Nat) (c : Compilation) : Prop where
  unhindered : c.Unhindered
  wellNamed : c.cursor.WellNamed
  orderly : c.emitter.table.Orderly runs
  prepared : c.emitter.table.Prepared

theorem settled_ofText (text : String) (config : Config) (logTrees : Bool) :
    (ofText text config {} logTrees).Settled 0 where
  unhindered := ⟨rfl, rfl⟩
  wellNamed := Cursor.wellNamed_ofString text 1
  orderly := Table.orderly_empty config
  prepared := .inl rfl

variable {c : Compilation} {runs : Nat} {jobs : List Job}

theorem Settled.orderly_effects (h : c.Settled runs) (hjobs : jobs <+: c.jobs) :
    (Job.effects jobs c.emitter).state.table.Orderly (runs + 1) := by
  rcases List.prefix_or_prefix_of_prefix hjobs (List.prefix_append _ _) with hopening | ⟨more, rfl⟩
  · exact h.orderly.opening hopening
  · have hmore : more <+: c.cursor.script.jobs := (List.prefix_append_right_inj _).mp hjobs
    have hnamed := (Cursor.wellNamed_script h.wellNamed).isName_jobs
    rw [Job.effects_append]
    apply Effect.state_andThen (P := fun e : Emitter => e.table.Orderly (runs + 1))
    · exact h.orderly.opening (List.prefix_refl _)
    · intro _
      apply (h.orderly.opening (List.prefix_refl _)).acts
      · intro job hjob
        exact Script.jobs_cases _ job (hmore.mem hjob)
      · intro job hjob
        exact hnamed job (hmore.mem hjob)

/-- Behind an opening that succeeds, the predeclared variables stand in the first slots. -/
theorem Settled.predeclared_effects (h : c.Settled runs)
    (hopening : (c.doing Emit.openingJobs).1.result = .ok ()) (jobs : List Job) :
    Emit.predeclared <+: (Job.effects (Emit.openingJobs ++ jobs) c.emitter).state.table.names := by
  have hopened := Emit.opened_opening h.prepared
  rw [doing, ← Emit.opening_eq,
    (Emitter.run_of_unlimited (Emit.performs_opening c.emitter) h.unhindered.1).1] at hopening
  rw [hopening, ← Job.effects_opening, ← Emit.openingJobs] at hopened
  exact List.IsPrefix.trans hopened (Job.names_mono_append _ _ _)

/-- An opening that fails leaves a full table, so no later opening can succeed. -/
theorem Settled.prepared_effects (h : c.Settled runs) (jobs : List Job) :
    (Job.effects (Emit.openingJobs ++ jobs) c.emitter).state.table.Prepared := by
  have hopened := Emit.opened_opening h.prepared
  rw [← Job.effects_opening, ← Emit.openingJobs] at hopened
  cases hresult : (Job.effects Emit.openingJobs c.emitter).result with
  | ok _ =>
    rw [hresult] at hopened
    exact .inr (.inr (List.IsPrefix.trans hopened (Job.names_mono_append _ _ _)))
  | error fault =>
    rw [hresult] at hopened
    rw [Job.effects_append, Effect.andThen_of_error hresult]
    exact .inr (.inl hopened)

theorem wellNamed_loopEffect {script : Script} (h : script.WellNamed) (count : Nat)
    (c : Compilation) : (Compile.loopEffect script count c).state.cursor.WellNamed := by
  induction script generalizing count c with
  | ends cursor => exact h
  | faulty fault cursor => exact h
  | statement line tree cursor rest ih =>
    obtain ⟨-, hcursor, hrest⟩ := h
    apply Effect.state_andThen (P := fun c : Compilation => c.cursor.WellNamed)
    · exact hcursor
    · intro _
      exact ih hrest (count + 1) _

theorem wellNamed_workEffect (h : c.cursor.WellNamed) :
    (Compile.workEffect c).state.cursor.WellNamed := by
  apply Effect.state_andThen (P := fun c : Compilation => c.cursor.WellNamed)
  · exact h
  · intro _
    exact wellNamed_loopEffect (Cursor.wellNamed_script h) 0 _

theorem Settled.run (h : c.Settled runs) : c.run.2.Settled (runs + 1) where
  unhindered := unhindered_run h.unhindered
  wellNamed := by
    have hcursor := wellNamed_workEffect h.wellNamed
    rw [← state_effect] at hcursor
    rw [run_of_unhindered h.unhindered]
    exact hcursor
  orderly := by
    rw [(run_eq_doing h.unhindered).1, (doing_eq h.unhindered _).2]
    exact h.orderly_effects (List.prefix_refl _)
  prepared := by
    rw [(run_eq_doing h.unhindered).1, (doing_eq h.unhindered _).2]
    exact h.prepared_effects _

theorem Settled.after (h : c.Settled 0) (k : Nat) : (c.after k).Settled k := by
  induction k with
  | zero => exact h
  | succ k ih => exact ih.run

/-- What has once been declared stays declared over all later runs. -/
theorem names_mono_after (h : c.Settled 0) {k l : Nat} (hle : k ≤ l) :
    (c.after k).emitter.table.names <+: (c.after l).emitter.table.names := by
  induction l, hle using Nat.le_induction with
  | base => exact List.prefix_refl _
  | succ l hle ih =>
    have hl := (h.after l).unhindered
    refine ih.trans ?_
    rw [after, (run_eq_doing hl).1, (doing_eq hl _).2]
    exact Job.names_mono_effects _ _

end Compilation

/-- **The table over several runs.** Let a compilation have been run `k` times. Then its table has
only legal names, each of the predeclared ones at most `k` times and every other one at most once.
This stays so in the course of the next run, which may declare each of the predeclared variables
once more; its opening leaves all variables as they are. As soon as an opening has succeeded, the
predeclared variables own the first slots, and they do so for the rest of that run and in every
later run. -/
theorem table_over_runs (text : String) (config : Config) (logTrees : Bool) (k : Nat) :
    let session := (Compilation.ofText text config {} logTrees).after
    (session k).emitter.table.Orderly k ∧
    (session (k + 1)).emitter.table = ((session k).doing (session k).jobs).2.table ∧
    (∃ last, (session k).run.1.text = ((session k).doing (session k).jobs).1.text ++ last) ∧
    (∀ jobs, jobs <+: (session k).jobs → ((session k).doing jobs).2.table.Orderly (k + 1)) ∧
    (∀ jobs, jobs <+: Emit.openingJobs →
      (session k).emitter.table.Preserves ((session k).doing jobs).2.table) ∧
    (((session k).doing Emit.openingJobs).1.result = .ok () →
      (∀ jobs, Emit.openingJobs <+: jobs → jobs <+: (session k).jobs →
        ((session k).doing jobs).2.table.Predeclares) ∧
      ∀ l, k < l → ∀ jobs, jobs <+: (session l).jobs →
        ((session l).doing jobs).2.table.Predeclares) := by
  intro session
  have hstart := Compilation.settled_ofText text config logTrees
  have hk := hstart.after k
  obtain ⟨htable, htext⟩ := Compilation.run_eq_doing hk.unhindered
  refine ⟨hk.orderly, htable, htext, ?_, ?_, ?_⟩
  · intro jobs hjobs
    rw [(Compilation.doing_eq hk.unhindered jobs).2]
    exact hk.orderly_effects hjobs
  · intro jobs hjobs
    rw [(Compilation.doing_eq hk.unhindered jobs).2]
    exact Table.preserves_of_vars (Job.vars_mono_opening hjobs _)
  · intro hopening
    have hfirst := hk.predeclared_effects hopening
    constructor
    · rintro _ ⟨more, rfl⟩ -
      rw [(Compilation.doing_eq hk.unhindered _).2]
      exact Table.predeclares_of_names (hfirst more)
    · intro l hlt jobs _
      have hl := hstart.after l
      have hnext : Emit.predeclared <+: (session (k + 1)).emitter.table.names := by
        rw [(Compilation.doing_eq hk.unhindered _).2] at htable
        exact htable ▸ hfirst _
      have hbegin := hnext.trans (Compilation.names_mono_after hstart hlt)
      rw [(Compilation.doing_eq hl.unhindered _).2]
      exact Table.predeclares_of_names (hbegin.trans (Job.names_mono_effects _ _))

/-- Two runs, the first of which stops at a parenthesis. The second one declares the predeclared
variables again. -/
theorem table_over_runs_after_fault :
    (((Compilation.ofText "a = 1\n)" {} {} false).after 0).doing Emit.openingJobs).1.result =
      .ok () ∧
    (((Compilation.ofText "a = 1\n)" {} {} false).after 1).doing
      ((Compilation.ofText "a = 1\n)" {} {} false).after 1).jobs).2.table.names =
        ["x", "y", "z", "a", "x", "y", "z"] ∧
    (((Compilation.ofText "a = 1\n)" {} {} false).after 1).doing
      ((Compilation.ofText "a = 1\n)" {} {} false).after 1).jobs).2.table.Predeclares := by
  have hopening : (((Compilation.ofText "a = 1\n)" {} {} false).after 0).doing
      Emit.openingJobs).1.result = .ok () := by cbv
  refine ⟨hopening, by cbv, ?_⟩
  have hpredeclares := (table_over_runs "a = 1\n)" {} false 0).2.2.2.2.2 hopening
  exact hpredeclares.2 1 Nat.one_pos _ (List.prefix_refl _)

end LineCompiler
