import Css.Target.Browser

/-!
# Options

What a caller chooses when a style sheet is parsed, transformed and printed.
-/
namespace Css

structure ModuleOptions where
  pattern : String := "[hash]_[local]"
  dashedIdents : Bool := false

structure ParseOptions where
  filename : String := "style.css"
  modules : Option ModuleOptions := none
  lenient : Bool := false
  customMedia : Bool := false

structure TransformOptions where
  targets : Targets := Targets.none
  unused : List String := []
  dependencies : Bool := false

def TransformOptions.symbols (options : TransformOptions) : List String :=
  (options.unused.mergeSort (· ≤ ·)).eraseReps

structure PrintOptions where
  minify : Bool := false
  sourceMap : Bool := false
  pseudoClasses : List (String × String) := []

end Css
