import TestSelection.Run.Config
import TestSelection.Suite.Decode

/-!
An example of each of the two configuration documents. Both are valid.
-/

namespace TestSelection.Examples

/-- Lines, each with a line feed. -/
def document (lines : List String) : String := String.join (lines.map (· ++ "\n"))

theorem toList_document (lines : List String) :
    (document lines).toList = lines.flatMap fun line => line.toList ++ ['\n'] := by
  simp [document, List.flatMap_def, Function.comp_def]

/-- The configuration of a suite. -/
def suite : String :=
  document
    ["keys = [\"cte_test\", \"headful\", \"intermittent\", \"randomness\"]",
      "requires_properties = [\"vm.flavor\", \"vm.debug\", \"vm.cds\"]",
      "groups = [\"TEST.groups\", \"[closed/TEST.groups]\"]",
      "modules = [\"java.base\"]",
      "enable_preview = false",
      "bug_validation = true",
      "ignored_directories = [\"SCCS\", \".git\"]",
      "testng_dirs = [\"java/util/stream\"]",
      "junit_dirs = [\"jdk/internal/junit\"]",
      "",
      "[extensions]",
      "jasm = \"block\"",
      "ksh = \"shell\"",
      "",
      "[directories.\"java/lang/invoke\"]",
      "modules = [\"java.base/jdk.internal.misc\"]",
      "keys = [\"randomness\"]",
      "",
      "[directories.\"java/lang/preview\"]",
      "enable_preview = true"]

theorem isOk_ofToml_suite : (SuiteConfig.ofToml suite).isOk = true := by
  rw [SuiteConfig.ofToml, Toml.parse?, suite, toList_document]
  simp only [List.flatMap_cons, List.flatMap_nil, String.reduceToList]
  decide +kernel

/-- The configuration of a run. -/
def run : String :=
  document
    ["timeout_limit_secs = 600",
      "keywords = \"!manual & !intermittent\"",
      "exclude_lists = [\"ProblemList.txt\"]",
      "match_lists = []",
      "prior_status = [\"failed\", \"error\"]",
      "vm_options = [\"-XX:+UseG1GC\", \"-Xmixed\"]",
      "test_thread_factory = \"Virtual\"",
      "",
      "[platform]",
      "os = \"linux\"",
      "arch = \"x64\""]

theorem isOk_ofToml_run : (RunConfig.ofToml run).isOk = true := by
  rw [RunConfig.ofToml, Toml.parse?, run, toList_document]
  simp only [List.flatMap_cons, List.flatMap_nil, String.reduceToList]
  decide +kernel

end TestSelection.Examples
