import ClassCheck.Entry
import ClassCheck.Typing.Members
import ClassCheck.Walk

/-! The analysis of a program: its classes, their members, the entry point, and the types of all
expressions. Every phase runs whatever the others report, and a program is accepted if none of them
reports anything. Built-in classes are trusted: their expressions are not typed. -/

namespace ClassCheck

structure Analysis where
  table : ClassTable
  order : List ClassInfo
  diagnostics : List Diagnostic
  notes : Notes

/-- Analyses a program; without one, only the built-in classes are looked at. -/
def analyze (program : Option Program) (entry : EntryPoint) : Analysis :=
  let registry := Registry.ofProgram program
  let hierarchy := Hierarchy.ofRegistry registry.value
  let h := hierarchy.value
  let environment := h.environment
  let table := ClassTable.ofEnvironment environment.value h
  let order := h.order.map (environment.value.classInfo h)
  let typing := (table.checkedClasses (order.filter (!·.isBuiltIn))).run Notes.empty
  { table := table
    order := order
    notes := typing.value.2
    diagnostics :=
      registry.diagnostics ++ hierarchy.diagnostics ++ environment.diagnostics ++
        (entry.problems table).map Located.diagnostic ++ typing.diagnostics }

namespace Analysis

def isAccepted (a : Analysis) : Bool := a.diagnostics.isEmpty

def typeOf? (a : Analysis) (e : Expr) : Option Ty := a.notes.typeOf? e

/-- Whether a cast is known to go toward an ancestor, and so needs no check when it is run. -/
def isUpcast (a : Analysis) (e : Expr) : Bool := a.notes.isUpcast e

def class? (a : Analysis) (name : String) : Option ClassInfo := a.table.find? name

def progress (a : Analysis) : List String :=
  ["semant: start building class tree"] ++
  a.order.map (fun c => "semant: class hierarchy " ++ c.lineage) ++
  ["semant: start building class environments",
    "semant: start checking entry point",
    "semant: start type checking",
    "semant: done, " ++ toString a.diagnostics.length ++ " diagnostic(s)"]

end Analysis

end ClassCheck
