import Css.Token.Tiling

/-!
# The tokens of a source

The tokens of a text in order, each with the span of its bytes.
-/
namespace Css.Token

def scanFrom (offset : Nat) (s : List Char) : List Token :=
  match s with
  | [] => []
  | c :: s =>
    let lexeme := Lexer.next (c :: s)
    let stop := offset + Text.utf8Length lexeme.text
    ⟨lexeme.kind,String.ofList lexeme.text,⟨offset,stop⟩⟩ :: scanFrom stop lexeme.rest
termination_by s.length
decreasing_by exact Lexer.length_next_rest_lt (by simp)

def scan (source : String) : List Token :=
  scanFrom 0 source.toList

def endOf (source : String) : Token :=
  ⟨.eof,"",.emptyAt (Text.utf8Length source.toList)⟩

def scanRules (source : String) : List Token :=
  (scan source).filter fun token => token.kind != .comment

end Css.Token
