import Adhoc.Proofs.FrameCourses
import Adhoc.Proofs.LexicalCapture

namespace Adhoc

open Emit

variable {v : Version} {x : Symbol} {i : Nat} {ds : List Deed}

namespace Draft

/-- Every access to the symbol under its name alone has the index `i`. Only `self` is read from slot 0
all the same. -/
def AccessesAt (d : Draft) (x : Symbol) (i : Nat) : Prop :=
  ∀ (p : Nat) line reach (index : Int), d.code[p]? = some ⟨line, .variable reach [x] index⟩ →
    index = i ∨ x.name = "self" ∧ reach = .eval ∧ index = 0

/-- The parameter has the slot `i`, where it is accessed. -/
structure Places (d : Draft) (x : Symbol) (i : Nat) : Prop where
  parameter : x ∈ d.parameters
  index : d.slots.localIndex? x = some i
  uncaptured : x ∉ d.captured
  accesses : d.AccessesAt x i

variable {known : Symbol → Prop} {d e : Draft}

theorem AccessesAt.grow (h : d.AccessesAt x i) (hcode : GoesOn d.code e.code)
    (hnew : ∀ (p : Nat) line reach (index : Int), d.code.size ≤ p →
      e.code[p]? = some ⟨line, .variable reach [x] index⟩ →
      index = i ∨ x.name = "self" ∧ reach = .eval ∧ index = 0) : e.AccessesAt x i := by
  intro p line reach index hget
  by_cases hp : p < d.code.size
  · exact h p line reach index ((hcode.same p _ hp rfl).1 hget)
  · exact hnew p line reach index (not_lt.1 hp) hget

theorem AccessesAt.after (h : d.AccessesAt x i) (hcode : GoesOn d.code e.code)
    (hnone : d.NamesNone e) : e.AccessesAt x i :=
  h.grow hcode fun p line reach index hp hget => absurd hget (hnone p line reach [x] index hp)

theorem Places.captures (h : d.Places x i) : d.captures x = false := by
  unfold Draft.captures
  split
  · rfl
  · simp [h.parameter, h.uncaptured]

theorem Change.uncaptured (h : d.Change known e ds) (hd : d.Places x i) : x ∉ e.captured := by
  cases h with
  | none _ _ hc | addLocal _ _ _ _ _ hc | addStatic _ _ _ _ _ hc | addMember _ _ _ _ hc
  | addStatics _ _ hc => exact hc ▸ hd.uncaptured
  | @capture y _ hcaptures _ _ _ hc =>
    rw [hc, List.mem_append, List.mem_singleton]
    rintro (hx | rfl)
    · exact hd.uncaptured hx
    · rw [hd.captures] at hcaptures
      cases hcaptures

theorem Writes.pushed {p : Nat} {line : UInt32} {reach : Reach} {index : Int} (h : d.Writes e ds)
    (hx : d.captures x = false) (hp : d.code.size ≤ p)
    (hget : e.code[p]? = some ⟨line, .variable reach [x] index⟩) :
    ∃ j : Nat, index = j ∧ e.code = d.code.push ⟨line, .variable reach [x] j⟩ := by
  have hpushed : ∀ {ins}, e.code = d.code.push ins → ⟨line, .variable reach [x] index⟩ = ins :=
    fun hcode => eq_of_pushed hcode hp hget
  cases h with
  | none h => simp [h, Array.getElem?_eq_none hp] at hget
  | patch h he => simp [he, Array.getElem?_eq_none ((patch_goesOn h).2 ▸ hp)] at hget
  | plain hplain h =>
    cases hpushed h
    cases hplain
  | captured hc _ hlast h =>
    cases hpushed h
    obtain rfl : x = _ := Option.some.inj hlast
    rw [hx] at hc
    cases hc
  | «local» _ _ h | static _ _ _ h | own _ h | self _ h =>
    cases hpushed h
    exact ⟨_, rfl, h⟩

theorem Places.after (h : d.Places x i) (hremains : d.Remains e) (hcode : GoesOn d.code e.code)
    (hnone : d.NamesNone e) (hindex : e.slots.localIndex? x = some i)
    (hcaptured : e.captured = d.captured) : e.Places x i :=
  ⟨hremains.parameters ▸ h.parameter, hindex, hcaptured ▸ h.uncaptured, h.accesses.after hcode hnone⟩

theorem Places.subroutine (h : d.Places x i) (depth : Depth) (name : Option Symbol) (frame : Frame)
    (isMethod : Bool) (line : UInt32) :
    Places (d.write ⟨line, .subroutine name frame isMethod⟩ depth) x i :=
  h.after ⟨rfl, rfl, rfl, rfl⟩ (.push _ _) (.push (.of_code rfl) rfl (by simp)) h.index rfl

/-- One step keeps the slot of a parameter and accesses it there. -/
theorem Places.step (h : d.Places x i) (hremains : d.Remains e) (hchange : d.Change known e ds)
    {es : List Deed} (hwrites : d.Writes e es) (hnamed : d.NamesLocals e) : e.Places x i := by
  have hindex := hchange.extends_slots.localIndex? h.index
  refine ⟨hremains.parameters ▸ h.parameter, hindex, hchange.uncaptured h,
    h.accesses.grow hwrites.goesOn.1 fun p line reach index hp hget => ?_⟩
  obtain ⟨j, rfl, hcode⟩ := hwrites.pushed h.captures hp hget
  rcases hnamed line reach x j hcode with hj | ⟨hself, ⟨hreach, rfl⟩ | hnone⟩
  · exact .inl (congrArg Nat.cast (Option.some.inj (hj.symm.trans hindex)))
  · exact .inr ⟨hself, hreach, rfl⟩
  · simp [Slots.hasLocal, hindex] at hnone

end Draft

theorem Course.places {s t : Session} (h : Course v ds s t) (hs : s.frame.Places x i) :
    t.frame.Places x i := by
  have hopen : ∀ {r : Session} kind, r.frame.Places x i → (r.open kind).frame.Places x i :=
    fun kind hr => ⟨hr.parameter, hr.index, hr.uncaptured, hr.accesses⟩
  refine h.fold (P := fun _ d e => d.Places x i → e.Places x i) (fun _ hs => hs)
    (fun h h' hs => h' (h hs)) (fun hstep hs => ?_) (fun {_ r _ _ _ _} hin hleave ih hs => ?_)
    (fun {_ r _ _} hin hleave ih hs => ?_) (fun _ depth _ _ _ _ hs => hs.subroutine depth _ _ _ _) hs
  · obtain ⟨_, _, -, hchange, hwrites⟩ := hstep.act
    exact hs.step hstep.remains hchange hwrites hstep.named
  · -- the index comes from the scope as a whole: it frees only what it noted itself
    have hindex := ((Course.nil r).scope hin hleave).locals.1.localIndex? hs.index
    obtain ⟨c, hcloses, -, -⟩ := leaveScope_closes hleave
    have hleaves := leaveScope_leaves hleave
    exact (ih (hopen _ hs)).after hcloses.remains hleaves.goesOn hleaves.namesNone hindex
      hcloses.captured
  · have hindex := ((Course.nil r).module hin hleave).locals.1.localIndex? hs.index
    obtain ⟨c, hcloses, -, -⟩ := leaveModuleScope_closes hleave
    have hleaves := leaveModuleScope_leaves hleave
    exact (ih (hopen _ hs)).after hcloses.remains hleaves.goesOn hleaves.namesNone hindex
      hcloses.captured

theorem Emit.frameExit_namesNone {s t : Session} (h : frameExit v s = .ok ((), t)) :
    s.frame.NamesNone t.frame := by
  have hstate : ∀ reach names index, stateOperation v .return ≠ .variable reach names index := by
    intro reach names index
    unfold stateOperation
    split <;> simp
  obtain ⟨f, r, hf, h⟩ := bind_ok.1 h
  obtain ⟨rfl, rfl⟩ := frame_ok.1 hf
  split at h
  · obtain ⟨-, rfl⟩ := pure_ok.1 h
    exact .of_code rfl
  unfold emptyReturn at h
  split at h
  · obtain ⟨_, u, hvoid, h⟩ := bind_ok.1 h
    obtain ⟨depth, rfl⟩ := emit_ok hvoid
    obtain ⟨_, w, hreturn, hdrop⟩ := bind_ok.1 h
    obtain rfl := emitUntracked_ok.1 hreturn
    obtain ⟨d, hd, rfl⟩ := onFrame_ok.1 hdrop
    cases hd
    exact .push (.push (.of_code rfl) rfl (by simp)) rfl hstate
  · obtain rfl := emitUntracked_ok.1 h
    exact .push (.of_code rfl) rfl hstate

theorem Draft.Prepared.places {symbols : SymbolTable} {enclosing : Option (List Symbol)} {d : Draft}
    (h : d.Prepared v symbols enclosing) (hnodup : d.parameters.Nodup)
    (hi : d.parameters[i]? = some x) : d.Places x (Slots.firstLocal v + i) where
  parameter := List.mem_of_getElem? hi
  index := (h.placed hnodup).localIndex? hnodup hi
  uncaptured := by simp [h.captured]
  accesses p line reach index hget := by simp [h.code] at hget

theorem Frame.Subroutine.accessesAt {f : Frame} (h : f.Subroutine v)
    (hnodup : f.header.parameters.Nodup) (hi : f.header.parameters[i]? = some x) :
    ∃ d : Draft, d.finish = f ∧ d.AccessesAt x (Slots.firstLocal v + i) := by
  have hleft : ∀ {w t : Session}, leaveScope v false w = .ok ((), t) →
      w.frame.AccessesAt x (Slots.firstLocal v + i) → t.frame.AccessesAt x (Slots.firstLocal v + i) :=
    fun hleave hw => hw.after (leaveScope_leaves hleave).goesOn (leaveScope_leaves hleave).namesNone
  cases h with
  | @closure _ _ s w t child hchild hbody hleave =>
    obtain ⟨c, hcloses, -, -⟩ := leaveScope_closes hleave
    have hparameters : t.frame.parameters = child.parameters :=
      hcloses.remains.parameters.trans hbody.remains.parameters
    have hplaces := hchild.places (hparameters ▸ hnodup) (hparameters ▸ hi)
    exact ⟨_, rfl, hleft hleave (hbody.places hplaces).accesses⟩
  | @definition _ _ s w r t child hchild hbody hleave hexit hcourse =>
    obtain ⟨c, hcloses, -, -⟩ := leaveScope_closes hleave
    have hparameters : t.frame.parameters = child.parameters :=
      hcourse.remains.parameters.trans (hcloses.remains.parameters.trans hbody.remains.parameters)
    have hplaces := hchild.places (hparameters ▸ hnodup) (hparameters ▸ hi)
    refine ⟨_, rfl, (hleft hleave (hbody.places hplaces).accesses).after ?_ (frameExit_namesNone hexit)⟩
    exact Draft.Leads.goesOn hcourse.namedLeads.leads

theorem Format.indexed_eq_flatMap (f : Format) (index : Nat → Int) (k : Nat) (xs : List Symbol) :
    f.indexed index k xs = (xs.zipIdx k).flatMap fun entry =>
      f.symbol entry.1 ++ f.signed 4 (index entry.2) := by
  induction xs generalizing k with
  | nil => rfl
  | cons x xs ih => simp [Format.indexed, ih]

variable {o : Options} {sources : Sources} {depth : Nat} {p : Program} {source : String}
  {script : Script}

/-- From version 8 on, the header of a subroutine lists the parameter at position `i` under the index
`1 + i`. If the parameters are distinct, every access to it under its name alone has that index from
version 11 on, and one less before. Only `self` is read from slot 0 all the same. -/
theorem compile_parameter_indices (h : p.compile o sources depth source = .ok script)
    (hv : 8 ≤ o.version.number) : ∀ f ∈ framesOf script.frame.code,
      script.format.parameters f.header.parameters =
        script.format.count f.header.parameters.length ++ f.header.parameters.zipIdx.flatMap (fun entry =>
          script.format.symbol entry.1 ++ script.format.signed 4 (1 + entry.2)) ∧
      (f.header.parameters.Nodup → ∀ (i : Nat) x, f.header.parameters[i]? = some x →
        ∀ line reach (index : Int), ⟨line, .variable reach [x] index⟩ ∈ f.code →
          index = (if 11 ≤ o.version.number then 1 + i else i) ∨
            x.name = "self" ∧ reach = .eval ∧ index = 0) := by
  obtain ⟨t, ht, rfl⟩ := Program.compile_ok h
  intro f hf
  constructor
  · have hlist : o.version.has .parameterList = true :=
      (Version.has_iff rfl _).2 (Nat.le_trans (by decide) hv)
    have hindices : o.version.has .parameterIndices = true := (Version.has_iff rfl _).2 hv
    simp [Format.parameters, Options.format, hlist, hindices, Format.indexed_eq_flatMap]
  · intro hnodup i x hi line reach index hmem
    obtain ⟨d, rfl, haccesses⟩ := (Program.subroutine_of_compile h hf).accessesAt hnodup hi
    obtain ⟨k, hk⟩ := List.mem_iff_getElem?.1 hmem
    rw [Draft.finish, Array.getElem?_toList] at hk
    have hfirst : ((Slots.firstLocal o.version + i : Nat) : Int) =
        if 11 ≤ o.version.number then 1 + i else i := by
      have hsplit := Version.has_iff (c := .splitStorage) rfl o.version
      by_cases hnew : 11 ≤ o.version.number
      · simp [Slots.firstLocal, hnew, hsplit.2 hnew]
      · simp [Slots.firstLocal, hnew, mt hsplit.1 hnew]
    exact hfirst ▸ haccesses k line reach index hk

/-- `function f(a, b) { { var c = b; } return a; }` -/
def twoParameters : Program where
  body := [.function {} ⟨some (.ident {} "f"), [.ident {} "a", .ident {} "b"], .stmt (.block {} [
    .block {} [.declare {} [⟨{}, some (.ident {} "c"), some (.ident {} "b")⟩]],
    .returnValue {} (some (.ident {} "a"))])⟩]

/-- `function f(self) { return self; }` -/
def selfParameter : Program where
  body := [.function {} ⟨some (.ident {} "f"), [.ident {} "self"], .stmt (.block {} [
    .returnValue {} (some (.selfRef {}))])⟩]

theorem twoParameters_indices : ∃ script,
    twoParameters.compile {} noSources 0 "main" = .ok script ∧
    (framesOf script.frame.code).map (fun f => (f.header.parameters.map Symbol.name, f.accesses)) =
      [(["a", "b"], [(["b"], 2), (["c"], 3), (["a"], 1)])] ∧
    ∀ f ∈ framesOf script.frame.code, f.header.parameters.Nodup →
      ∀ (i : Nat) x, f.header.parameters[i]? = some x →
        ∀ line reach (index : Int), ⟨line, .variable reach [x] index⟩ ∈ f.code →
          index = 1 + i ∨ x.name = "self" ∧ reach = .eval ∧ index = 0 := by
  exact exists_ok_and (by decide +kernel)
    fun script h f hf => (compile_parameter_indices h (by decide) f hf).2

/-- The header lists `a` and `b` under 1 and 2, and `self` under 1: they are the symbols 2 and 3, and
2. -/
theorem parameter_indices_differ :
    ((twoParameters.compile { version := ⟨10, by decide⟩ } noSources 0 "main").toOption.map fun script =>
      (framesOf script.frame.code).map fun f =>
        (script.format.parameters f.header.parameters, f.accesses)) =
          some [([2, 0, 0, 0, 2, 1, 0, 0, 0, 3, 2, 0, 0, 0], [(["c"], 2), (["b"], 1), (["a"], 0)])] ∧
    ((selfParameter.compile {} noSources 0 "main").toOption.map fun script =>
      (framesOf script.frame.code).map fun f =>
        (script.format.parameters f.header.parameters, f.accesses)) =
          some [([1, 0, 0, 0, 2, 1, 0, 0, 0], [(["self"], 0)])] :=
  ⟨by decide +kernel, by decide +kernel⟩

end Adhoc
