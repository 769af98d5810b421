import TestSelection.Proofs.Context.VmOption
import TestSelection.Proofs.Filter.Selection

/-!
What a run says of its target, laid over a context. Options only fill gaps, and the thread factory
is set only where it is open: where there is no entry for it, or the text for a fact that is not
there. So what a context has stays. Afterwards the factory is open only if the run's own factory is
called `null`, and to set that again changes nothing. The same holds of a context that was built with
the facts of the run, where the factory was set before the options were looked at.
-/

namespace TestSelection

open ContextBuilder (threadFactoryFact)

namespace Context

variable {c : Context} {name : String} {fact : Fact}

theorem put_of_get? (h : c.get? name = some fact) : c.put name fact = c :=
  congrArg Context.mk (Table.insert_of_get? h)

theorem get?_withVmOptions_of_some (options : List String) (h : c.get? name = some fact) :
    (c.withVmOptions options).get? name = some fact := by
  rw [get?_withVmOptions, h, Option.some_or]

end Context

namespace RunConfig

variable {run : RunConfig} {c : Context} {name factory : String} {fact : Fact}

/-! ### The thread factory -/

/-- A context with the thread factory of a run, if it leaves that open. -/
def withFactory (run : RunConfig) (c : Context) : Context :=
  match run.threadFactory with
  | some factory => if lacksThreadFactory c then c.set threadFactoryFact factory else c
  | none => c

theorem layer_eq (run : RunConfig) (c : Context) :
    run.layer c = (run.withFactory c).withVmOptions run.vmOptions := rfl

theorem lacksThreadFactory_iff :
    lacksThreadFactory c = true ↔
      ∀ fact, c.get? threadFactoryFact = some fact → fact = .value nullText := by
  rw [lacksThreadFactory]
  cases c.get? threadFactoryFact with
  | none => simp
  | some fact => cases fact <;> simp

theorem get?_withFactory (h : c.get? name = some fact)
    (hopen : ¬ (name = threadFactoryFact ∧ fact = .value nullText)) :
    (run.withFactory c).get? name = some fact := by
  rw [withFactory]
  cases run.threadFactory with
  | none => exact h
  | some factory =>
      dsimp only
      split
      · rename_i hlacks
        have hname : threadFactoryFact ≠ name := by
          rintro rfl
          exact hopen ⟨rfl, lacksThreadFactory_iff.mp hlacks fact h⟩
        rw [Context.set, Context.get?_put, if_neg hname, h]
      · exact h

/-- What a context says of the thread factory is not changed by a run: it is not open, or it is what
the run would set. -/
def FactorySettled (run : RunConfig) (c : Context) : Prop :=
  ∀ factory, run.threadFactory = some factory →
    ∃ fact, c.get? threadFactoryFact = some fact ∧ (fact = .value nullText → factory = nullText)

theorem withFactory_eq_self (h : run.FactorySettled c) : run.withFactory c = c := by
  rw [withFactory]
  cases hrun : run.threadFactory with
  | none => rfl
  | some factory =>
      obtain ⟨fact, hget, hnull⟩ := h factory hrun
      dsimp only
      split
      · rename_i hlacks
        obtain rfl := lacksThreadFactory_iff.mp hlacks fact hget
        rw [hnull rfl]
        exact Context.put_of_get? hget
      · rfl

theorem factorySettled_withFactory (run : RunConfig) (c : Context) :
    run.FactorySettled (run.withFactory c) := by
  intro factory hrun
  simp only [withFactory, hrun]
  split
  · have hget : (c.set threadFactoryFact factory).get? threadFactoryFact
        = some (.value factory) := by
      rw [Context.set, Context.get?_put, if_pos rfl]
    exact ⟨_, hget, Fact.value.inj⟩
  · rename_i hlacks
    rw [lacksThreadFactory_iff] at hlacks
    push Not at hlacks
    obtain ⟨fact, hget, hfact⟩ := hlacks
    exact ⟨fact, hget, fun heq => absurd heq hfact⟩

theorem FactorySettled.withVmOptions (h : run.FactorySettled c) (options : List String) :
    run.FactorySettled (c.withVmOptions options) := by
  intro factory hrun
  obtain ⟨fact, hget, hnull⟩ := h factory hrun
  exact ⟨fact, Context.get?_withVmOptions_of_some options hget, hnull⟩

/-! ### Layers -/

theorem layer_withVmOptions (h : run.FactorySettled c) {options : List String}
    (hoptions : ∀ option ∈ run.vmOptions, option ∈ options) :
    run.layer (c.withVmOptions options) = c.withVmOptions options := by
  rw [layer_eq, withFactory_eq_self (h.withVmOptions options), Context.withVmOptions_again hoptions]

/-- Of what is set for a target the thread factory comes last. -/
theorem get?_threadFactory_facts (b : ContextBuilder) :
    (b.facts.foldl (fun c p => c.put p.1 p.2) Context.empty).get? threadFactoryFact
      = some (.value (b.threadFactory.getD nullText)) := by
  rw [Context.get?_foldl_put, ContextBuilder.facts, List.reverse_append, List.reverse_singleton,
    List.singleton_append, Table.find?, if_pos rfl, Option.some_or]

theorem layer_buildContext (run : RunConfig) (b : ContextBuilder) :
    run.layer (run.buildContext b) = run.buildContext b := by
  refine layer_withVmOptions (fun factory hrun => ?_) fun option => List.mem_append_right _
  refine ⟨_, get?_threadFactory_facts _, fun heq => ?_⟩
  simpa [hrun] using heq

/-- What a run says of its target is laid over a context once: it adds to the context, and a second
time it changes nothing. A context that was built with the facts of the run has them already, so a
chain asks requirements of the context that it is given. -/
theorem layer_idempotent (run : RunConfig) :
    (∀ c, run.layer (run.layer c) = run.layer c) ∧
    (∀ (c : Context) (name : String) (fact : Fact), c.get? name = some fact →
      ¬ (name = "test.thread.factory" ∧ fact = .value "null") →
      (run.layer c).get? name = some fact) ∧
    ∀ b, run.layer (run.buildContext b) = run.buildContext b ∧
      ∀ (tree : FileTree) (inputs : RunInputs) (chain : FilterChain),
        inputs.context = run.buildContext b → run.chain tree inputs = .ok chain →
        chain.filters[1]? = some (.requires (run.buildContext b) [] RequirementRecord.empty) := by
  refine ⟨fun c => ?_, fun c name fact h hopen => ?_, fun b => ⟨layer_buildContext run b, ?_⟩⟩
  · exact layer_withVmOptions (factorySettled_withFactory run c) fun _ => id
  · exact Context.get?_withVmOptions_of_some _ (get?_withFactory h hopen)
  · intro tree inputs chain hinputs hchain
    obtain ⟨lists, -, rfl⟩ := exists_reads_of_chain hchain
    rw [← layer_buildContext run b, ← hinputs]
    rfl

/-- Neither a collector that is unknown nor a thread factory that has a name is replaced, and the
factory that the builder names gives way to the one of the run. -/
theorem layer_idempotent_factory :
    let run := { default with
      vmOptions := ["-XX:+UseG1GC", "-Xint"], threadFactory := some "Virtual" }
    let c := (Context.empty.setUnknown "vm.gc" "VM exited").set "test.thread.factory" "Platform"
    let b := { ContextBuilder.empty with
      threadFactory := some "Platform", vmOptions := ["-Xcomp"] }
    let inputs : RunInputs := ⟨run.buildContext b, none, Table.empty, ⟨"linux", "x64"⟩⟩
    c.get? "vm.gc" = some (.unknown "VM exited") ∧
      (run.layer c).get? "vm.gc" = some (.unknown "VM exited") ∧
      c.get? "test.thread.factory" = some (.value "Platform") ∧
      (run.layer c).get? "test.thread.factory" = some (.value "Platform") ∧
      (run.layer c).get? "vm.compMode" = some (.value "Xint") ∧
      run.layer (run.layer c) = run.layer c ∧
      (run.buildContext b).get? "test.thread.factory" = some (.value "Virtual") ∧
      (run.buildContext b).get? "vm.compMode" = some (.value "Xcomp") ∧
      ∃ chain, run.chain (.folder []) inputs = .ok chain ∧
        chain.filters[1]? = some (.requires (run.buildContext b) [] RequirementRecord.empty) := by
  intro run c b inputs
  obtain ⟨htwice, hkept, hbuilt⟩ := layer_idempotent run
  have hgc : c.get? "vm.gc" = some (.unknown "VM exited") := by decide +kernel
  have hfactory : c.get? "test.thread.factory" = some (.value "Platform") := by decide +kernel
  have hchain : run.chain (.folder []) inputs = .ok ⟨ExprCache.empty, [.modules none [],
      .requires (run.layer inputs.context) [] RequirementRecord.empty]⟩ := rfl
  exact ⟨hgc, hkept c _ _ hgc (by decide), hfactory, hkept c _ _ hfactory (by decide),
    by decide +kernel, htwice c, by decide +kernel, by decide +kernel, _, hchain,
    (hbuilt b).2 _ inputs _ rfl hchain⟩

end RunConfig

end TestSelection
