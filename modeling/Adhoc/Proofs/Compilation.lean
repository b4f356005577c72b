import Adhoc.Compile
import Adhoc.Proofs.Placement

namespace Adhoc

open Emit

@[simp] theorem Context.version_atDepth (cx : Context) (depth : Nat) :
    (cx.atDepth depth).version = cx.version := by
  cases depth <;> rfl

@[simp] theorem Context.library_atDepth (cx : Context) (folder : Option String) (depth : Nat) :
    (cx.atDepth depth).library folder = cx.library folder := by
  cases depth <;> rfl

theorem Context.logsExceptions_atDepth (cx : Context) (depth : Nat) :
    (cx.atDepth depth).logsExceptions = cx.logsExceptions := by
  cases depth <;> rfl

/-- What the compilation of a program can include. -/
def Options.library (o : Options) (sources : Sources) : Library :=
  ⟨sources, o.includeFolder, o.projectFolder⟩

@[simp] theorem Options.version_context (o : Options) (sources : Sources) (depth : Nat) :
    (o.context sources depth).version = o.version := Context.version_atDepth _ _

@[simp] theorem Options.logsExceptions_context (o : Options) (sources : Sources) (depth : Nat) :
    (o.context sources depth).logsExceptions = o.logsExceptions :=
  Context.logsExceptions_atDepth _ _

@[simp] theorem Options.library_context (o : Options) (sources : Sources) (depth : Nat) :
    (o.context sources depth).library o.includeFolder = o.library sources :=
  Context.library_atDepth _ _ _

theorem Program.code_context (o : Options) (sources : Sources) (depth : Nat) (p : Program) :
    p.code (o.context sources depth) = (do
      pushScope .block
      Emit.body o.version o.logsExceptions (stmtCodes (o.context sources depth) p.body)
      leaveScope o.version true
      setState o.version .exit) := by
  rw [code, Options.version_context, Options.logsExceptions_context]

/-- A compilation is a run of the program's code. -/
theorem Program.compile_ok {o : Options} {sources : Sources} {depth : Nat} {p : Program}
    {source : String} {script : Script} (h : p.compile o sources depth source = .ok script) :
    ∃ t, p.code (o.context sources depth) (Session.start o source) = .ok ((), t) ∧
      script = ⟨o.format, t.frame.finish, t.symbols, Warning.all.filter t.warnings.contains⟩ := by
  unfold Program.compile at h
  cases hc : p.code (o.context sources depth) (Session.start o source) with
  | error e =>
    rw [hc] at h
    cases h
  | ok r =>
    rw [hc] at h
    exact ⟨r.2, rfl, (Except.ok.inj h).symm⟩

theorem exists_ok {ε α : Type} {x : Except ε α} (h : x.isOk = true) : ∃ a, x = .ok a := by
  cases x with
  | error => cases h
  | ok a => exact ⟨a, rfl⟩

theorem exists_ok_and {ε α : Type} {x : Except ε α} {P Q : α → Prop} [DecidablePred P]
    (h : (x.toOption.any fun a => P a) = true) (hq : ∀ a, x = .ok a → Q a) :
    ∃ a, x = .ok a ∧ P a ∧ Q a := by
  cases x with
  | error => cases h
  | ok a => exact ⟨a, rfl, of_decide_eq_true h, hq a rfl⟩

def noSources : Sources := ⟨fun _ => false, fun _ => none⟩

end Adhoc
