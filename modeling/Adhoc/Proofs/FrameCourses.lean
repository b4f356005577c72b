import Adhoc.Proofs.FollowStmt
import Adhoc.Proofs.History

namespace Adhoc

open Emit Array

variable {v : Version} {ds : List Deed} {g f : Frame} {line : UInt32}

namespace Draft

/-- A step in the making of a frame that writes locals, and nothing else, under one name. -/
def NamedStep (v : Version) (d e : Draft) : Prop := d.BuildStep v True e ∧ d.NamesLocals e

abbrev NamedLeads (v : Version) : Draft → Draft → Prop := Relation.ReflTransGen (NamedStep v)

variable {d e : Draft}

theorem NamedLeads.leads (h : d.NamedLeads v e) : d.Leads v True e :=
  Relation.ReflTransGen.mono (fun _ _ ht => ht.1) _ _ h

/-- No variable is written behind the code of the first draft. -/
def NamesNone (d e : Draft) : Prop :=
  ∀ (p : Nat) line reach names index, d.code.size ≤ p →
    e.code[p]? ≠ some ⟨line, .variable reach names index⟩

theorem NamesNone.of_code (h : e.code = d.code) : d.NamesNone e := by
  intro p line reach names index hp hget
  rw [h, getElem?_eq_none hp] at hget
  cases hget

theorem NamesNone.push {f : Draft} {op : Operation} (h : d.NamesNone e)
    (hcode : f.code = e.code.push ⟨line, op⟩)
    (hop : ∀ reach names index, op ≠ .variable reach names index) : d.NamesNone f := by
  intro p line' reach names index hp hget
  rw [hcode, getElem?_push] at hget
  split at hget
  · exact hop reach names index (Instruction.mk.inj (Option.some.inj hget)).2
  · exact h p line' reach names index hp hget

/-- Where no variable is written, there is nothing to say about names. -/
theorem Leads.named (h : d.Leads v True e) (hnew : d.NamesNone e) : d.NamedLeads v e := by
  induction h with
  | refl => exact .refl
  | @tail f e hlead hbuild ih =>
    have hgoesOn := hbuild.goesOn.1
    refine (ih fun p line reach names index hp hget => ?_).tail ⟨hbuild, fun line reach x i hcode => ?_⟩
    · exact hnew p line reach names index hp (hgoesOn.get rfl hget)
    · refine absurd ?_ (hnew f.code.size line reach [x] i (Leads.goesOn hlead).size)
      rw [hcode, getElem?_push_size]

end Draft

namespace Draft.Leaves

variable {d e : Draft}

theorem namesNone (h : d.Leaves e) : d.NamesNone e := by
  rcases h with hcode | ⟨m, n, hcode⟩
  · exact .of_code hcode
  · exact .push (.of_code rfl) hcode (by simp)

theorem goesOn (h : d.Leaves e) : GoesOn d.code e.code := by
  rcases h with hcode | ⟨m, n, hcode⟩
  · exact hcode ▸ .refl _
  · exact hcode ▸ .push _ _

theorem framesOf (h : d.Leaves e) (hg : g ∈ framesOf e.code.toList) :
    g ∈ framesOf d.code.toList := by
  rcases h with hcode | ⟨m, n, hcode⟩
  · rwa [hcode] at hg
  · simpa [hcode, framesOf_eq, Instruction.frames, Operation.frames] using hg

end Draft.Leaves

theorem Emit.leaveScope_namedLeads {s t : Session} {leaves : Bool}
    (h : leaveScope v leaves s = .ok ((), t)) : s.frame.NamedLeads v t.frame :=
  Draft.Leads.named (leaveScope_leads h) (leaveScope_leaves h).namesNone

theorem Course.namedLeads {s t : Session} (h : Course v ds s t) : s.frame.NamedLeads v t.frame := by
  have hopen : ∀ (r : Session) kind, r.frame.NamedStep v (r.open kind).frame := fun r kind =>
    ⟨.openScope kind, .of_size le_rfl⟩
  have hpush : ∀ (d : Draft) depth name frame isMethod line,
      d.NamedStep v (d.write ⟨line, .subroutine name frame isMethod⟩ depth) :=
    fun d depth name frame isMethod line => ⟨.subroutine depth name frame isMethod line,
      .of_push rfl fun _ _ _ heq => by cases heq⟩
  refine h.fold (P := fun _ d e => d.NamedLeads v e) (fun _ => .refl) .trans (fun hstep => ?_)
    (fun _ hleave ih => .head (hopen _ _) (ih.trans (leaveScope_namedLeads hleave)))
    (fun _ hleave ih => .head (hopen _ _) (ih.trans ?_)) fun _ _ _ _ _ _ => .single (hpush _ _ _ _ _ _)
  · obtain ⟨_, _, -, hchange, hwrites⟩ := hstep.act
    exact .single ⟨.step hstep.remains (hchange.mono fun _ _ => trivial) hwrites hstep.records,
      hstep.named⟩
  · exact Draft.Leads.named (leaveModuleScope_leads trivial hleave)
      (leaveModuleScope_leaves hleave).namesNone

/-- The frame of a subroutine, with the course of its body. A definition has an exit behind it. -/
inductive Frame.Subroutine (v : Version) : Frame → Prop
  | closure {outer : List Symbol} {ds : List Deed} {s w t : Session} {child : Draft} :
    child.Prepared v s.symbols (some outer) → Course v ds (s.at child) w →
    leaveScope v false w = .ok ((), t) → Subroutine v t.frame.finish
  | definition {ds es : List Deed} {s w x t : Session} {child : Draft} :
    child.Prepared v s.symbols none → Course v ds (s.at child) w →
    leaveScope v false w = .ok ((), x) → frameExit v x = .ok ((), t) → Course v es x t →
    Subroutine v t.frame.finish

theorem GoesOn.framesOf {code code' : Array Instruction} (h : GoesOn code code')
    (hg : g ∈ framesOf code'.toList) : g ∈ framesOf code.toList ∨
      ∃ (p : Nat) (ins : Instruction), code.size ≤ p ∧ code'[p]? = some ins ∧ g ∈ ins.frames := by
  obtain ⟨ins, hins, hg⟩ := mem_framesOf.1 hg
  obtain ⟨p, hp⟩ := List.mem_iff_getElem?.1 hins
  rw [getElem?_toList] at hp
  by_cases hold : p < code.size
  · have htarget : ins.operation.target? = none := by
      obtain ⟨line, op⟩ := ins
      cases op <;> first | rfl | cases hg
    have hget := (h.same p ins hold htarget).1 hp
    rw [← getElem?_toList] at hget
    exact .inl (mem_framesOf.2 ⟨ins, List.mem_of_getElem? hget, hg⟩)
  · exact .inr ⟨p, ins, Nat.le_of_not_lt hold, hp, hg⟩

theorem Draft.Writes.framesOf {d e : Draft} (h : d.Writes e ds) (hg : g ∈ framesOf e.code.toList) :
    g ∈ framesOf d.code.toList := by
  refine (h.goesOn.1.framesOf hg).resolve_right ?_
  rintro ⟨p, ins, hp, hget, hg⟩
  have hpushed : ∀ {i : Instruction}, e.code = d.code.push i → i.frames = [] → False := by
    intro i hcode hi
    rw [hcode, getElem?_push] at hget
    split at hget
    · cases hget
      rw [hi] at hg
      cases hg
    · rw [getElem?_eq_none hp] at hget
      cases hget
  cases h with
  | none h => simp [h, getElem?_eq_none hp] at hget
  | patch h he => simp [he, getElem?_eq_none ((patch_goesOn h).2 ▸ hp)] at hget
  | plain hplain h => exact hpushed h (Instruction.frames_plain _ hplain)
  | captured _ _ _ h | «local» _ _ h | static _ _ _ h | own _ h | self _ h => exact hpushed h rfl

theorem framesOf_push {code : Array Instruction} {name : Option Symbol} {frame : Frame}
    {isMethod : Bool}
    (hg : g ∈ framesOf (code.push ⟨line, .subroutine name frame isMethod⟩).toList) :
    g ∈ framesOf code.toList ∨ g ∈ frame.preorder := by
  simpa [mem_framesOf, or_and_right, exists_or, Instruction.frames, Operation.frames] using hg

theorem Frame.mem_preorder : g ∈ f.preorder ↔ g = f ∨ g ∈ framesOf f.code := by
  cases f
  simp [Frame.preorder]

theorem Course.subroutines {s t : Session} (h : Course v ds s t)
    (hs : ∀ g ∈ framesOf s.frame.code.toList, g.Subroutine v) :
    ∀ g ∈ framesOf t.frame.code.toList, g.Subroutine v := by
  induction h with
  | nil => exact hs
  | step _ hstep ih =>
    obtain ⟨_, _, -, -, hwrites⟩ := hstep.act
    exact fun g hg => ih hs g (hwrites.framesOf hg)
  | scope _ _ hclose ih ihin =>
    exact fun g hg => ihin (ih hs) g ((leaveScope_leaves hclose).framesOf hg)
  | module _ _ hclose ih ihin =>
    exact fun g hg => ihin (ih hs) g ((leaveModuleScope_leaves hclose).framesOf hg)
  | closure _ _ hchild hbody hclose _ _ hemit ih ihdefaults ihbody ihreads =>
    intro g hg
    obtain ⟨depth, rfl⟩ := emit_ok hemit
    rcases framesOf_push hg with hg | hg
    · exact ihreads (ihdefaults (ih hs)) g hg
    · rcases Frame.mem_preorder.1 hg with rfl | hg
      · exact .closure hchild hbody hclose
      · refine ihbody ?_ g ((leaveScope_leaves hclose).framesOf hg)
        simp [Session.at, hchild.code, framesOf]
  | definition _ hchild hbody hclose hexit hcourse hemit ih ihbody ihexit =>
    intro g hg
    obtain ⟨depth, rfl⟩ := emit_ok hemit
    rcases framesOf_push hg with hg | hg
    · exact ih hs g hg
    · rcases Frame.mem_preorder.1 hg with rfl | hg
      · exact .definition hchild hbody hclose hexit hcourse
      · refine ihexit (fun g hg => ihbody ?_ g ((leaveScope_leaves hclose).framesOf hg)) g hg
        simp [Session.at, hchild.code, framesOf]

theorem Frame.Subroutine.made (h : f.Subroutine v) :
    ∃ enclosing d0 d, Draft.Fresh v enclosing false d0 ∧ d0.NamedLeads v d ∧ d.finish = f := by
  have hbegun : ∀ {enclosing : Option (List Symbol)} {symbols : SymbolTable} {child : Draft},
      child.Prepared v symbols enclosing → ∃ d0, Draft.Fresh v enclosing false d0 ∧
        d0.NamedLeads v child := by
    intro enclosing symbols child hchild
    obtain ⟨d0, hfresh, hleads⟩ := hchild.begun
    exact ⟨d0, hfresh, Draft.Leads.named hleads fun p _ _ _ _ _ hget => by simp [hchild.code] at hget⟩
  cases h with
  | closure hchild hbody hleave =>
    obtain ⟨d0, hfresh, hnamed⟩ := hbegun hchild
    exact ⟨_, d0, _, hfresh, hnamed.trans (hbody.namedLeads.trans (leaveScope_namedLeads hleave)), rfl⟩
  | definition hchild hbody hleave _ hexit =>
    obtain ⟨d0, hfresh, hnamed⟩ := hbegun hchild
    refine ⟨_, d0, _, hfresh, hnamed.trans (hbody.namedLeads.trans ?_), rfl⟩
    exact (leaveScope_namedLeads hleave).trans hexit.namedLeads

variable {o : Options} {sources : Sources} {depth : Nat} {p : Program} {source : String}
  {script : Script}

theorem Program.subroutine_of_compile (h : p.compile o sources depth source = .ok script)
    (hf : f ∈ framesOf script.frame.code) : f.Subroutine o.version := by
  obtain ⟨t, ht, rfl⟩ := Program.compile_ok h
  obtain ⟨ds, hcourse⟩ := Program.course o sources depth ht
  exact hcourse.subroutines (fun _ hg => nomatch hg) f hf

theorem Program.made_of_compile (h : p.compile o sources depth source = .ok script)
    (hf : f ∈ script.frame.preorder) : ∃ enclosing isRoot d0 d,
      Draft.Fresh o.version enclosing isRoot d0 ∧ d0.NamedLeads o.version d ∧ d.finish = f := by
  rcases Frame.mem_preorder.1 hf with rfl | hf
  · obtain ⟨t, ht, rfl⟩ := Program.compile_ok h
    obtain ⟨ds, hcourse⟩ := Program.course o sources depth ht
    exact ⟨none, true, _, _, ⟨_, rfl⟩, hcourse.namedLeads, rfl⟩
  · obtain ⟨enclosing, d0, d, hmade⟩ := (Program.subroutine_of_compile h hf).made
    exact ⟨enclosing, false, d0, d, hmade⟩

end Adhoc
