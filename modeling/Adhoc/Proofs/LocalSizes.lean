import Adhoc.Proofs.FrameCourses

namespace Adhoc

variable {o : Options} {sources : Sources} {depth : Nat} {p : Program} {source : String}
  {script : Script} {f : Frame}

theorem Program.takesByName_of_compile (h : p.compile o sources depth source = .ok script)
    (hf : f ∈ script.frame.preorder) : f.TakesByName o.version := by
  obtain ⟨t, ht, rfl⟩ := Program.compile_ok h
  obtain ⟨ds, hcourse, hbound⟩ := p.follows o sources depth (fun _ hf => nomatch hf) ht
  rcases Frame.mem_preorder.1 hf with rfl | hf
  · exact fun _ => hcourse.byName
  · exact (hbound.code.frames f hf).resolve_left fun h => nomatch h

/-- From version 11 on, the table of locals has one slot more than there were locals at once. So it is
after any requests that take the slots of locals for their names, and the container gives that size
for every frame, with the most locals that there were while the frame was compiled. -/
theorem compile_localSize (hv : 11 ≤ o.version.number) :
    (∀ rs, (∀ c, .add .local c ∉ rs) → ((Slots.empty o.version).run rs).localSize =
      1 + (Slots.empty o.version).peak rs) ∧
    ∀ sources depth p source script, Program.compile o sources depth p source = .ok script →
      ∀ f ∈ script.frame.preorder,
        script.format.sizes f.header = script.format.signed 4 f.header.depth.highest ++
          script.format.count (1 + f.header.slots.mostLive) ++
          script.format.count (f.header.slots.staticSize?.getD 0) := by
  have hsplit : o.version.has .splitStorage = true := Version.has_of_eleven hv rfl
  refine ⟨fun rs => Slots.localSize_run_empty hsplit, fun sources depth p source script h f hf => ?_⟩
  have hreserves : o.version.has .reservedLocalInFrame = false := by
    simp [Version.has, show Capability.span .reservedLocalInFrame = (1, 10) from rfl]
    omega
  have hversion : script.format.version.has .splitStorage = true := by
    obtain ⟨t, -, rfl⟩ := Program.compile_ok h
    exact hsplit
  have hslots := Program.takesByName_of_compile h hf hreserves
  rw [Format.sizes, if_pos hversion, hslots.localSize hsplit]

/-- `{ var a = 1; } { var b = 2; }` -/
def twoScopes : Program where
  body := [
    .block {} [.declare {} [⟨{}, some (.ident {} "a"), some (.literal {} (.int 1))⟩]],
    .block {} [.declare {} [⟨{}, some (.ident {} "b"), some (.literal {} (.int 2))⟩]]]

/-- Only one local is live at once. -/
theorem twoScopes_localSize : ∃ script,
    twoScopes.compile {} noSources 0 "main" = .ok script ∧
    script.frame.header.slots.mostLive = 1 ∧
    ∀ f ∈ script.frame.preorder,
      script.format.sizes f.header = script.format.signed 4 f.header.depth.highest ++
        script.format.count (1 + f.header.slots.mostLive) ++
        script.format.count (f.header.slots.staticSize?.getD 0) :=
  exists_ok_and (by decide +kernel) fun script h =>
    (compile_localSize (o := {}) (by decide)).2 _ _ _ _ script h

end Adhoc
