import TestSelection.Context.Basic
import TestSelection.Text

/-!
Facts that follow from the options of a virtual machine. An option gives at most one fact, and only
where the context has none yet, so that of several options for one fact the first counts.
-/

namespace TestSelection

namespace VmOption

/-- A letter, digit or underscore, once or more. -/
def isFlagName (name : String) : Bool := !name.isEmpty && name.toList.all Chars.isWordChar

/-- The collector that an option of the form `-XX:+Use…GC` selects. -/
def collector? (option : String) : Option String :=
  ((Text.after? "-XX:+Use" option).bind (Text.before? "GC")).filter isFlagName

/-- The name under which a context keeps a flag. -/
def flagFact (name : String) : String := "vm.opt." ++ name

/-- The fact that an option gives: name and value. -/
def fact? (option : String) : Option (String × String) :=
  match collector? option with
  | some gc => some ("vm.gc", gc)
  | none =>
    if ["-Xint", "-Xmixed", "-Xcomp"].contains option then
      some ("vm.compMode", String.ofList (option.toList.drop 1))
    else
      match Text.after? "-XX:" option with
      | none => none
      | some rest =>
        match Text.cut '=' rest with
        | some (name, value) => if isFlagName name then some (flagFact name, value) else none
        | none =>
          match rest.toList with
          | '+' :: name =>
            let name := String.ofList name
            if isFlagName name then some (flagFact name, "true") else none
          | '-' :: name =>
            let name := String.ofList name
            if isFlagName name then some (flagFact name, "false") else none
          | _ => none

end VmOption

namespace Context

/-- Adds the fact of one option, if the context has no entry of its name. -/
def withVmOption (c : Context) (option : String) : Context :=
  match VmOption.fact? option with
  | some (name, value) => c.setNew name value
  | none => c

/-- Adds the facts of options from left to right. -/
def withVmOptions (c : Context) (options : List String) : Context := options.foldl withVmOption c

end Context

end TestSelection
