import ClassCheck.Diagnostic

/-! Message templates: text with places for strings and numbers. -/

namespace ClassCheck.Diagnostic

inductive Argument where
  | string (s : String)
  | number (n : Int)

def Argument.text : Argument → String
  | .string s => s
  | .number n => toString n

namespace Template

/-- Reads a template with its arguments: `%s` and `%d` take the next argument, `%%` is a percent
sign, and everything else stands for itself. -/
def fillChars : List Char → List Argument → String
  | '%' :: '%' :: rest, args => "%" ++ fillChars rest args
  | '%' :: 's' :: rest, a :: args => a.text ++ fillChars rest args
  | '%' :: 'd' :: rest, a :: args => a.text ++ fillChars rest args
  | c :: rest, args => c.toString ++ fillChars rest args
  | [], _ => ""

def fill (template : String) (args : List Argument) : String := fillChars template.toList args

end Template

def ofTemplate (kind : Kind) (reason : Reason) (file : String) (line : Int) (template : String)
    (args : List Argument) : Diagnostic where
  severity := .semanticError
  kind := kind
  reason := reason
  file := file
  line := line
  message := Template.fill template args

end ClassCheck.Diagnostic
