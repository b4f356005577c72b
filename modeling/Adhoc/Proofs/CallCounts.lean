import Adhoc.Proofs.FollowStmt

namespace Adhoc

variable {o : Options} {sources : Sources} {depth : Nat} {p : Program} {source : String}
  {script : Script}

/-- A compiled script has the calls of all nodes of its program. -/
theorem Program.calls_of_compile {n : ℕ} (h : p.compile o sources depth source = .ok script)
    (hlogs : o.logsExceptions = false) (hn : callsOf false p.nodes = .some n) :
    script.frame.calls = n := by
  obtain ⟨t, ht, rfl⟩ := Program.compile_ok h
  obtain ⟨ds, -, hbound⟩ := p.follows o sources depth (fun _ hf => nomatch hf) ht
  have hcalls := hbound.code.calls n (by simpa [Deeds.inScope, Deeds.logged, hlogs, Deeds.all, Program.nodes,
    Function.comp_def] using hn)
  rw [Draft.calls_finish, hcalls]
  exact Nat.zero_add n

/-- Without includes and without logged exceptions, the calls in a script are those of its nodes,
each as often as it is lowered. If every call is read, there is just one for each in the program if
and only if none stands in the target of a returned assignment, where it is lowered twice. -/
theorem compile_calls (h : p.compile o sources depth source = .ok script)
    (hlogs : o.logsExceptions = false)
    (hincludes : ∀ q ∈ p.nodes, q.part.isInclusion = false) :
    script.frame.calls = loweredCalls p.nodes ∧
      ((∀ q ∈ p.nodes, q.part.ownCalls ≠ 0 → q.isRead = true) →
        (script.frame.calls = writtenCalls p.nodes ↔
          ∀ q ∈ p.nodes, q.part.ownCalls ≠ 0 → q.targets = 0)) := by
  have hopen : ∀ q ∈ p.nodes, q.part.isOpen false = false := by
    intro q hq
    have hq := hincludes q hq
    rcases q with ⟨_ | s, _, _⟩
    · rfl
    · cases s <;> first | rfl | cases hq
  have hcalls := Program.calls_of_compile h hlogs (callsOf_eq hopen)
  exact ⟨hcalls, fun hread => hcalls ▸ loweredCalls_eq_iff hread⟩

/-- `function g() { return f().x = 1; }` -/
def returnedTarget : Program where
  body := [.function {} ⟨some (.ident {} "g"), [], .stmt (.block {} [.returnValue {} (some
    (.assign {} .assign (.attribute {} (.call {} (.ident {} "f") []) (.ident {} "x") false)
      (.literal {} (.int 1))))])⟩]

/-- The call is written once and lowered twice. -/
theorem returnedTarget_calls : ∃ script,
    returnedTarget.compile { version := ⟨12, by decide⟩ } noSources 0 "main" = .ok script ∧
    script.frame.calls = 2 ∧ writtenCalls returnedTarget.nodes = 1 ∧
    (∀ q ∈ returnedTarget.nodes, q.part.ownCalls ≠ 0 → q.isRead = true) ∧
    ¬ ∀ q ∈ returnedTarget.nodes, q.part.ownCalls ≠ 0 → q.targets = 0 := by
  have hread : ∀ q ∈ returnedTarget.nodes, q.part.ownCalls ≠ 0 → q.isRead = true := by
    decide +kernel
  have hwritten : writtenCalls returnedTarget.nodes = 1 := by decide +kernel
  refine exists_ok_and (by decide +kernel) fun script h => ⟨hwritten, hread, fun hall => ?_⟩
  have htwice : script.frame.calls = loweredCalls returnedTarget.nodes :=
    (compile_calls h rfl (by decide +kernel)).1
  have honce := ((compile_calls h rfl (by decide +kernel)).2 hread).2 hall
  rw [htwice] at honce
  exact absurd honce (by decide +kernel)

end Adhoc
