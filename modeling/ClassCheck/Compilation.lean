import ClassCheck.Analysis

/-! Compilation: a program is analysed, and handed to a generator if it is accepted. -/

namespace ClassCheck

/-- Makes code for an accepted program, and may change a state of its own. The answer is the text of
an error, if there is one. -/
abbrev Generator (σ : Type) := Program → Analysis → StateM σ (Option String)

inductive CompileError (ε : Type) where
  | noProgram
  | semantic (error : ε)
  | generator (message : String)

def CompileError.message {ε : Type} (errors : MultiError ε) : CompileError ε → String
  | noProgram => "compiler: no program to compile"
  | semantic error => errors.message error
  | generator message => message

structure Compilation (ε : Type) where
  analysis : Option Analysis
  error : Option (CompileError ε)
  log : List String

/-- Compiles a program. Without a generator only the analysis runs, and without a program not even
that. The analysis is given back also when the program is refused. -/
def compile {ε σ : Type} (errors : MultiError ε) (program : Option Program)
    (generator : Option (Generator σ)) (entry : EntryPoint) : StateM σ (Compilation ε) :=
  match program with
  | none => pure ⟨none, some .noProgram, []⟩
  | some p =>
      let a := analyze (some p) entry
      let log := "compiler: start semantic analysis" :: a.progress
      match errors.fold a.diagnostics with
      | some error => pure ⟨some a, some (.semantic error), log⟩
      | none =>
          match generator with
          | none => pure ⟨some a, none, log⟩
          | some generate => do
              let message ← generate p a
              pure ⟨some a, message.map .generator, log ++ ["compiler: start generate codes"]⟩

end ClassCheck
