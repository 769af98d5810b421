import TestSelection.Context.OsFacts
import TestSelection.Context.VmOption

/-!
How a context is put together from what is known of a target: first the system properties, then the
version, the operating system and the thread factory, where later facts replace earlier ones, and
last what follows from the options of the virtual machine, which replaces nothing.
-/

namespace TestSelection

/-- What is known of a target. -/
structure ContextBuilder where
  /-- System properties, each known or with the reason why it is not. -/
  properties : Table Fact
  version : Option String
  os : Option OsFacts
  threadFactory : Option String
  vmOptions : List String

namespace ContextBuilder

def empty : ContextBuilder := ⟨Table.empty, none, none, none, []⟩

instance : Inhabited ContextBuilder := ⟨empty⟩

/-- The name of the fact about the thread factory. -/
def threadFactoryFact : String := "test.thread.factory"

def versionFacts (version : String) : List (String × Fact) :=
  [("jdk.version", .value version),
    ("jdk.version.major",
      match featureRelease? version with
      | some n => .value (toString n)
      | none => .unknown s!"cannot determine major version from {version}")]

/-- A number, or the text for a fact that is not there. -/
def numberFact : Option Nat → Fact
  | some n => .value (toString n)
  | none => .value nullText

def osFacts (os : OsFacts) : List (String × Fact) :=
  [("os.name", .value os.name), ("os.arch", .value os.arch),
    ("os.simpleArch", .value os.shortArch), ("os.version", .value os.version),
    ("os.simpleVersion", .value os.shortVersion), ("os.family", .value os.family),
    ("os.processors", numberFact os.processors), ("os.maxMemory", numberFact os.maxMemory),
    ("os.maxSwap", numberFact os.maxSwap)]

/-- All facts that do not come from options, in the order in which they are set. -/
def facts (b : ContextBuilder) : List (String × Fact) :=
  b.properties.entries
    ++ (match b.version with
      | some version => versionFacts version
      | none => [])
    ++ (match b.os with
      | some os => osFacts os
      | none => [])
    ++ [(threadFactoryFact, .value (b.threadFactory.getD nullText))]

def build (b : ContextBuilder) : Context :=
  (b.facts.foldl (fun c (name, fact) => c.put name fact) Context.empty).withVmOptions b.vmOptions

end ContextBuilder

end TestSelection
