import Css.Modules.Export
import Css.Rule.Parser
import Css.Rule.Render
import Css.Sheet.Dependency
import Css.SourceMap.Json

/-!
# Style sheets

A style sheet is the rules of a file with what is known about them.
-/
namespace Css

structure StyleSheet where
  filename : String
  source : String
  rules : List Rule
  modules : Option ModuleOptions
  customMedia : Bool
  warnings : List Error
  exports : Option Modules.Exports := none
  references : Modules.References := []
  dependencies : List Dependency := []

structure Printed where
  code : String
  map : Option SourceMap

namespace StyleSheet

def dialect (file : SourceFile) (options : ParseOptions) : Dialect where
  file := file
  modules := options.modules.isSome
  dashed := options.modules.any ModuleOptions.dashedIdents
  lenient := options.lenient
  customMedia := options.customMedia

def checkPattern (options : ParseOptions) : Except Error Unit :=
  match options.modules with
  | none => .ok ()
  | some modules =>
    match Modules.Pattern.read modules.pattern with
    | .ok _ => .ok ()
    | .error problem => .error (Modules.patternError problem)

def parse (source : String) (options : ParseOptions) : Except Error StyleSheet := do
  checkPattern options
  let file := SourceFile.ofText options.filename source
  match (Rule.parse (dialect file options) source).run.run [] with
  | (.error fault, _) => .error (file.error fault)
  | (.ok rules, faults) =>
    .ok {
      filename := options.filename, source, rules
      modules := options.modules, customMedia := options.customMedia
      warnings := faults.map file.error }

def print (sheet : StyleSheet) (options : PrintOptions) : Printed :=
  let start : Writer := { minify := options.minify, mapped := options.sourceMap }
  let written := start.putAll (Rule.printed options sheet.rules)
  let code :=
    if options.minify || written.code.isEmpty then written.code else written.code ++ "\n"
  let map : SourceMap :=
    { sources := [sheet.filename], contents := [some sheet.source], mappings := written.mappings }
  ⟨code,if options.sourceMap then some map else none⟩

def hoist? (sheet : StyleSheet) (i : Nat) : Option StyleSheet :=
  let splice (nested : List Rule) : StyleSheet :=
    { sheet with rules := sheet.rules.take i ++ nested ++ sheet.rules.drop (i + 1) }
  match sheet.rules[i]? with
  | some (.style _ rules) => some (splice rules)
  | some (.group (.media _) rules _) => some (splice rules)
  | _ => none

end StyleSheet

end Css
