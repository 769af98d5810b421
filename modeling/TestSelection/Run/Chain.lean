import TestSelection.Context.Builder
import TestSelection.Filter.Chain

/-!
The chain of a run: modules and requirements always, the other filters where the run's configuration
asks for them.
-/

namespace TestSelection

/-- What is known of the target of a run. -/
structure RunInputs where
  context : Context
  /-- The installed modules; absent if the target has no modules. -/
  installed : Option NameSet
  /-- What an earlier run made of tests. -/
  prior : Table PriorStatus
  /-- The platform of the machine that the run is on. -/
  host : Platform

namespace RunConfig

/-- The context of a target, with the thread factory and the options of the run. -/
def buildContext (run : RunConfig) (b : ContextBuilder) : Context :=
  ContextBuilder.build { b with
    vmOptions := b.vmOptions ++ run.vmOptions
    threadFactory := run.threadFactory.or b.threadFactory }

/-- Whether a context leaves the thread factory open. -/
def lacksThreadFactory (c : Context) : Bool :=
  match c.get? ContextBuilder.threadFactoryFact with
  | none => true
  | some (.value text) => text == nullText
  | some (.unknown _) => false

/-- Adds what the run says of its thread factory and its options to a context, which keeps the facts
that it has. -/
def layer (run : RunConfig) (c : Context) : Context :=
  let c := match run.threadFactory with
    | some factory =>
      if lacksThreadFactory c then c.set ContextBuilder.threadFactoryFact factory else c
    | none => c
  c.withVmOptions run.vmOptions

def excludeFilter (run : RunConfig) (tree : FileTree) (host : Platform) :
    Except ListError (List Filter) :=
  if run.excludeLists = [] then return []
  else do
    let list ← run.excludeLists.foldlM (fun l path => do
      let texts ← readLists tree [path]
      return l.merge (← ExcludeList.ofTexts texts)) ExcludeList.empty
    return [.excludeList list (run.platform.getD host) []]

def matchFilter (run : RunConfig) (tree : FileTree) : Except ListError (List Filter) :=
  if run.matchLists = [] then return []
  else do
    let texts ← readLists tree run.matchLists
    return [.matchList (MatchList.ofTexts (texts.map (·.2))) []]

def keywordFilter (run : RunConfig) : Except ListError (List Filter) :=
  match run.keywords with
  | none => .ok []
  | some text => (Filter.ofKeywords text).map ([·])

def chain (run : RunConfig) (tree : FileTree) (inputs : RunInputs) :
    Except ListError FilterChain := do
  let always : List Filter :=
    [.modules inputs.installed [],
      .requires (run.layer inputs.context) [] RequirementRecord.empty]
  let limit := (run.timeLimit.map fun limit => Filter.timeLimit limit []).toList
  let excluded ← run.excludeFilter tree inputs.host
  let matched ← run.matchFilter tree
  let keywords ← run.keywordFilter
  let status : List Filter :=
    if run.priorStatus = [] then [] else [.priorStatus run.priorStatus inputs.prior []]
  return ⟨ExprCache.empty, always ++ limit ++ excluded ++ matched ++ keywords ++ status⟩

end RunConfig

end TestSelection
