import Adhoc.Proofs.FollowStmt
import Adhoc.Proofs.LocalSlots
import Adhoc.Proofs.Tiling

namespace Adhoc

open Emit List Array Draft Slots

variable {α : Type} {v : Version} {d e : Draft} {moments : Array Slots} {x : Symbol} {loc : Loc}
  {ins : Instruction} {p i k : Nat} {ds : List Deed} {sub : Frame} {code : List Instruction}

/-- What stands before the closure at `p`, in a frame with the given captured variables and code: a
read of each variable that the closure captured. Its index is that of a captured variable of the
frame, or the slot that the variable has among the locals when the read is written. -/
structure ClosureSite (moments : Array Slots) (captured : List Symbol) (code : List Instruction)
    (p : Nat) (sub : Frame) : Prop where
  distinct : sub.header.captured.Nodup
  reads : ∃ q, p = q + sub.header.captured.length ∧
    ∀ k c, sub.header.captured[k]? = some c → ∃ line index,
      code[q + k]? = some ⟨line, .variable .eval [c] index⟩ ∧
      ((∃ j, index = Int.negSucc j ∧ captured[j]? = some c) ∨
        ∃ (i : Nat) (slots : Slots), index = i ∧ moments[q + k]? = some slots ∧
          slots.localIndex? c = some i)

namespace Frame

/-- The frame captures nothing and has no negative index. -/
def CapturesNothing (f : Frame) : Prop :=
  f.header.captured = [] ∧ ∀ line reach names index,
    ⟨line, .variable reach names index⟩ ∈ f.code → 0 ≤ index

/-- The closures of the frame have their sites, its named subroutines capture nothing, and its
negative indices are those of its captured variables. -/
structure CapturesValid (f : Frame) : Prop where
  closure : ∀ p line sub isMethod, f.code[p]? = some ⟨line, .subroutine none sub isMethod⟩ →
    ClosureSite f.header.moments f.header.captured f.code p sub
  named : ∀ line name sub isMethod, ⟨line, .subroutine (some name) sub isMethod⟩ ∈ f.code →
    sub.CapturesNothing
  index : ∀ line reach names k, ⟨line, .variable reach names (Int.negSucc k)⟩ ∈ f.code →
    ∃ c, f.header.captured[k]? = some c ∧ names.getLast? = some c

end Frame

/-- What the operation at `p` says about captured variables holds in a frame with the given moments,
captured variables and code. -/
def Explained (moments : Array Slots) (captured : List Symbol) (code : List Instruction) (p : Nat) :
    Operation → Prop
  | .variable _ names index => ∀ k, index = Int.negSucc k →
    ∃ c, captured[k]? = some c ∧ names.getLast? = some c
  | .subroutine none sub _ => ClosureSite moments captured code p sub ∧
    ∀ f ∈ sub.preorder, f.CapturesValid
  | .subroutine (some _) sub _ => sub.CapturesNothing ∧ ∀ f ∈ sub.preorder, f.CapturesValid
  | _ => True

theorem getElem?_of_prefix {l l' : List α} {a : α} (h : l <+: l') (hk : l[k]? = some a) :
    l'[k]? = some a := by
  obtain ⟨hlt, rfl⟩ := List.getElem?_eq_some_iff.1 hk
  exact List.prefix_iff_getElem?.1 h k hlt

theorem eq_of_pushed {l l' : Array α} {a b : α} (h : l' = l.push b) (hk : l.size ≤ k)
    (hget : l'[k]? = some a) : a = b := by
  rw [h, getElem?_push] at hget
  split at hget
  · exact (Option.some.inj hget).symm
  · rw [Array.getElem?_eq_none hk] at hget
    cases hget

section

variable {moments' : Array Slots} {captured captured' : List Symbol} {code' : List Instruction}
  {op : Operation}

theorem ClosureSite.mono (h : ClosureSite moments captured code p sub)
    (hm : ∀ (k : Nat) (slots : Slots), moments[k]? = some slots → moments'[k]? = some slots)
    (hc : captured <+: captured')
    (hcode : ∀ (k : Nat) (ins : Instruction), ins.operation.target? = none →
      code[k]? = some ins → code'[k]? = some ins) : ClosureSite moments' captured' code' p sub := by
  obtain ⟨q, hp, hreads⟩ := h.reads
  refine ⟨h.distinct, q, hp, fun k c hk => ?_⟩
  obtain ⟨line, index, hget, hindex⟩ := hreads k c hk
  refine ⟨line, index, hcode _ _ rfl hget, hindex.imp ?_ ?_⟩
  · rintro ⟨j, rfl, hj⟩
    exact ⟨j, rfl, getElem?_of_prefix hc hj⟩
  · rintro ⟨i, slots, rfl, hslots, hi⟩
    exact ⟨i, slots, rfl, hm _ _ hslots, hi⟩

theorem Explained.mono (h : Explained moments captured code p op)
    (hm : ∀ (k : Nat) (slots : Slots), moments[k]? = some slots → moments'[k]? = some slots)
    (hc : captured <+: captured')
    (hcode : ∀ (k : Nat) (ins : Instruction), ins.operation.target? = none →
      code[k]? = some ins → code'[k]? = some ins) : Explained moments' captured' code' p op := by
  cases op with
  | «variable» reach names index =>
    intro k hk
    obtain ⟨c, hget, hlast⟩ := h k hk
    exact ⟨c, getElem?_of_prefix hc hget, hlast⟩
  | subroutine name sub isMethod =>
    cases name with
    | none => exact ⟨h.1.mono hm hc hcode, h.2⟩
    | some name => exact h
  | _ => trivial

theorem Explained.plain (h : op.isPlain = true) : Explained moments captured code p op := by
  cases op <;> trivial

end

/-- What the draft says about captured variables holds. -/
structure Draft.CapturesSoundly (symbols : SymbolTable) (d : Draft) : Prop where
  known : ∀ x ∈ d.captured, symbols.Knows x
  distinct : d.captured.Nodup
  inView : ∀ x ∈ d.captured, ∃ outer, d.enclosing = some outer ∧ x ∈ outer
  noted : d.Noted
  explained : ∀ p ins, d.code[p]? = some ins →
    Explained d.moments d.captured d.code.toList p ins.operation

namespace Draft.CapturesSoundly

variable {symbols symbols' : SymbolTable}

theorem grow (h : CapturesSoundly symbols d) (hleads : d.Leads v True e)
    (hsymbols : symbols.Grows symbols') (henclosing : e.enclosing = d.enclosing)
    (hcaptured : e.captured = d.captured ∨ ∃ x outer, symbols'.Knows x ∧ x ∉ d.captured ∧
      d.enclosing = some outer ∧ x ∈ outer ∧ e.captured = d.captured ++ [x])
    (hnew : ∀ p ins, d.code.size ≤ p → e.code[p]? = some ins →
      Explained e.moments e.captured e.code.toList p ins.operation) :
    CapturesSoundly symbols' e := by
  have hprefix : d.captured <+: e.captured := by
    rcases hcaptured with h | ⟨x, outer, -, -, -, -, h⟩
    · exact h ▸ prefix_rfl
    · exact h ▸ prefix_append _ _
  have hcode := Leads.goesOn hleads
  refine ⟨fun x hx => ?_, ?_, fun x hx => ?_, Leads.noted hleads h.noted, fun p ins hget => ?_⟩
  · rcases hcaptured with hsame | ⟨y, outer, hy, -, -, -, hadd⟩
    · exact (h.known x (hsame ▸ hx)).mono hsymbols
    · rw [hadd, List.mem_append, List.mem_singleton] at hx
      rcases hx with hx | rfl
      · exact (h.known x hx).mono hsymbols
      · exact hy
  · rcases hcaptured with hsame | ⟨y, outer, -, hy, -, -, hadd⟩
    · exact hsame ▸ h.distinct
    · rw [hadd]
      exact concat_eq_append ▸ h.distinct.concat hy
  · rw [henclosing]
    rcases hcaptured with hsame | ⟨y, outer, -, -, hout, hmem, hadd⟩
    · exact h.inView x (hsame ▸ hx)
    · rw [hadd, List.mem_append, List.mem_singleton] at hx
      rcases hx with hx | rfl
      · exact h.inView x hx
      · exact ⟨outer, hout, hmem⟩
  · by_cases hp : p < d.code.size
    · cases hj : ins.operation.target? with
      | some target =>
        -- A jump says nothing about captured variables.
        refine .plain ?_
        obtain ⟨line, op⟩ := ins
        cases op <;> first | rfl | cases hj
      | none =>
        have hold := h.explained p ins ((hcode.same p ins hp hj).1 hget)
        refine Explained.mono hold (fun _ _ => Leads.moments hleads) hprefix fun k i hi hk => ?_
        rw [getElem?_toList] at hk ⊢
        exact hcode.get hi hk
    · exact hnew p ins (not_lt.1 hp) hget

theorem of_empty (hcode : d.code = #[]) (hmoments : d.moments = #[]) (hcaptured : d.captured = []) :
    CapturesSoundly symbols d where
  known x hx := by simp [hcaptured] at hx
  distinct := by simp [hcaptured]
  inView x hx := by simp [hcaptured] at hx
  noted := by simp [Noted, hcode, hmoments]
  explained p ins hget := by simp [hcode] at hget

theorem same (h : CapturesSoundly symbols d) (hleads : d.Leads v True e)
    (hsymbols : symbols.Grows symbols') (henclosing : e.enclosing = d.enclosing)
    (hcaptured : e.captured = d.captured) (hcode : e.code = d.code) :
    CapturesSoundly symbols' e := by
  refine h.grow hleads hsymbols henclosing (.inl hcaptured) fun p ins hp hget => ?_
  rw [hcode, Array.getElem?_eq_none hp] at hget
  cases hget

theorem push (h : CapturesSoundly symbols d) (hleads : d.Leads v True e)
    (hsymbols : symbols.Grows symbols') (henclosing : e.enclosing = d.enclosing)
    (hcaptured : e.captured = d.captured) (hcode : e.code = d.code.push ins)
    (hins : Explained e.moments e.captured e.code.toList d.code.size ins.operation) :
    CapturesSoundly symbols' e := by
  refine h.grow hleads hsymbols henclosing (.inl hcaptured) fun p ins' hp hget => ?_
  rw [hcode, getElem?_push] at hget
  split at hget
  · rename_i hlast
    cases Option.some.inj hget
    exact hlast ▸ hins
  · rw [Array.getElem?_eq_none hp] at hget
    cases hget

theorem frames (h : CapturesSoundly symbols d) : ∀ f ∈ d.finish.preorder, f.CapturesValid := by
  have hexplained : ∀ p ins, d.finish.code[p]? = some ins →
      Explained d.moments d.captured d.finish.code p ins.operation :=
    fun p ins hget => h.explained p ins (by simpa [finish] using hget)
  intro f hf
  have hf' : f = d.finish ∨ f ∈ framesOf d.code.toList := by
    simpa [finish, Frame.preorder] using hf
  rcases hf' with rfl | hf
  · refine ⟨fun p line sub isMethod hget => (hexplained p _ hget).1,
      fun line name sub isMethod hmem => ?_, fun line reach names k hmem => ?_⟩
    all_goals obtain ⟨p, hget⟩ := mem_iff_getElem?.1 hmem
    · exact (hexplained p _ hget).1
    · exact hexplained p _ hget k rfl
  · obtain ⟨ins, hins, hf⟩ := mem_framesOf.1 hf
    obtain ⟨p, hget⟩ := mem_iff_getElem?.1 hins
    have hsays := hexplained p ins hget
    obtain ⟨line, op⟩ := ins
    cases op <;> first
      | exact absurd hf not_mem_nil
      | skip
    rename_i name sub isMethod
    cases name with
    | none | some name => exact hsays.2 f hf

theorem capturesNothing (h : CapturesSoundly symbols d) (henclosing : d.enclosing = none) :
    d.finish.CapturesNothing := by
  have hnone : d.captured = [] := by
    refine eq_nil_iff_forall_not_mem.2 fun x hx => ?_
    obtain ⟨outer, hout, -⟩ := h.inView x hx
    rw [henclosing] at hout
    cases hout
  refine ⟨hnone, fun line reach names index hmem => ?_⟩
  obtain ⟨p, hget⟩ := mem_iff_getElem?.1 hmem
  have hsays := h.explained p _ (by simpa [finish] using hget)
  cases index with
  | ofNat i => exact Int.natCast_nonneg i
  | negSucc k =>
    obtain ⟨c, hc, -⟩ := hsays k rfl
    simp [hnone] at hc

end Draft.CapturesSoundly

namespace Draft

variable {known : Symbol → Prop} {es : List Deed}

theorem Change.captured_eq (h : d.Change known e ds) : e.captured = d.captured ∨
    ∃ x outer, known x ∧ x ∉ d.captured ∧ d.enclosing = some outer ∧ x ∈ outer ∧
      e.captured = d.captured ++ [x] := by
  cases h with
  | none _ _ h | addLocal _ _ _ _ _ h | addStatic _ _ _ _ _ h | addMember _ _ _ _ h
  | addStatics _ _ h => exact .inl h
  | @capture x hx hc hmem _ _ h =>
    unfold captures at hc
    split at hc
    · cases hc
    · rename_i outer hout
      simp only [Bool.and_eq_true, List.contains_eq_mem, decide_eq_true_eq] at hc
      exact .inr ⟨x, outer, hx, hmem, hout, hc.1, h⟩

theorem Change.captured_prefix (h : d.Change known e ds) : d.captured <+: e.captured := by
  rcases h.captured_eq with h | ⟨x, outer, -, -, -, -, h⟩
  · exact h ▸ prefix_rfl
  · exact h ▸ prefix_append _ _

theorem Writes.explained (h : d.Writes e es) (hp : d.code.size ≤ p) (hget : e.code[p]? = some ins) :
    Explained moments e.captured code p ins.operation := by
  have hpushed : ∀ {i}, e.code = d.code.push i → ins = i := fun hcode => eq_of_pushed hcode hp hget
  cases h with
  | none h =>
    rw [h, Array.getElem?_eq_none hp] at hget
    cases hget
  | patch h he =>
    rw [he, Array.getElem?_eq_none ((patch_goesOn h).2 ▸ hp)] at hget
    cases hget
  | plain hplain h => exact hpushed h ▸ .plain hplain
  | captured _ hk hlast h =>
    cases hpushed h
    intro k hindex
    cases hindex
    exact ⟨_, hk, hlast⟩
  | «local» _ _ h | static _ _ _ h | own _ h | self _ h =>
    cases hpushed h
    intro k hindex
    cases hindex

end Draft

theorem Step.capturesSoundly {s t : Session} (h : Step ds s t)
    (hs : s.frame.CapturesSoundly s.symbols) : t.frame.CapturesSoundly t.symbols := by
  obtain ⟨es, fs, -, hchange, hwrites⟩ := h.act
  have hleads : s.frame.Leads .latestCommon True t.frame :=
    .single (.step h.remains (hchange.mono fun _ _ => trivial) hwrites h.records)
  exact hs.grow hleads h.widens.symbols h.remains.enclosing hchange.captured_eq fun _ _ hp hget =>
    hwrites.explained hp hget

theorem Draft.resolve_of_live {use : Access} (hi : d.slots.localIndex? x = some i)
    (huse : use = .read ∨ use = .write) :
    resolve x use d =
      .ok (if d.captures x then Int.negSucc (d.captured.idxOf x) else (i : Int), d) := by
  have hmem : d.captures x = true → x ∈ d.captured := by
    intro hc
    by_contra hx
    rw [captures_localIndex? hc hx] at hi
    cases hi
  rcases huse with rfl | rfl
  all_goals
    simp only [resolve]
    split <;> rename_i hc
    · simp only [capture, List.contains_eq_mem, hmem hc, decide_true, if_true]
      rfl
    · rw [if_pos (by simp [hasLocal, hi])]
      simp [useLocal, findOrAddLocal, hi]

theorem Draft.resolve_live {index : Int} (hi : d.slots.localIndex? x = some i)
    (h : resolve x .read d = .ok (index, e)) :
    e = d ∧ ((∃ j, index = Int.negSucc j ∧ d.captured[j]? = some x) ∨ index = i) := by
  rw [resolve_of_live hi (.inl rfl), Except.ok.injEq, Prod.mk.injEq] at h
  obtain ⟨rfl, rfl⟩ := h
  refine ⟨rfl, ?_⟩
  split <;> rename_i hc
  · have hmem : x ∈ d.captured := by
      by_contra hx
      rw [captures_localIndex? hc hx] at hi
      cases hi
    refine .inl ⟨d.captured.idxOf x, rfl, ?_⟩
    rw [getElem?_eq_getElem (idxOf_lt_length_of_mem hmem), getElem_idxOf]
  · exact .inr rfl

theorem Emit.readName_live {s t : Session} (hx : s.symbols.Knows x)
    (hi : s.frame.slots.localIndex? x = some i) (h : readName v x.name loc s = .ok ((), t)) :
    ∃ depth index, t = s.at (s.frame.write ⟨loc.line, .variable .eval [x] index⟩ depth) ∧
      ((∃ j, index = Int.negSucc j ∧ s.frame.captured[j]? = some x) ∨ index = i) := by
  simp only [readName, access, accessNames, bind_ok] at h
  obtain ⟨y, r, hy, index, r1, hr, names, r2, ⟨f, r3, hf, hnames⟩, hemit⟩ := h
  obtain ⟨rfl, rfl⟩ := symbol_known hx hy
  obtain ⟨d, hd, rfl⟩ := onFrame_ok.1 hr
  obtain ⟨rfl, hindex⟩ := resolve_live hi hd
  obtain ⟨rfl, rfl⟩ := frame_ok.1 hf
  obtain ⟨rfl, rfl⟩ := pure_ok.1 hnames
  obtain ⟨depth, rfl⟩ := emit_ok hemit
  have hstatic : r.frame.isStatic y = false := by simp [isStatic, hasLocal, hi]
  refine ⟨depth, index, ?_, hindex⟩
  simp [hstatic, Session.at]

theorem Emit.readNames_live {cs : List Symbol} {s t : Session}
    (hknown : ∀ c ∈ cs, s.symbols.Knows c) (hlive : ∀ c ∈ cs, s.frame.slots.localIndex? c ≠ none)
    (h : (cs.forM fun c => readName v c.name loc) s = .ok ((), t)) :
    ∃ (depth : Depth) (is : List Instruction),
      t = s.at { s.frame with
        depth := depth
        code := s.frame.code ++ is
        moments := s.frame.moments ++ List.replicate is.length s.frame.slots } ∧
      Forall₂ (fun c ins => ∃ index, ins = ⟨loc.line, .variable .eval [c] index⟩ ∧
        ((∃ j, index = Int.negSucc j ∧ s.frame.captured[j]? = some c) ∨
          ∃ i : Nat, index = i ∧ s.frame.slots.localIndex? c = some i)) cs is := by
  induction cs generalizing s with
  | nil =>
    obtain ⟨-, rfl⟩ := pure_ok.1 h
    exact ⟨t.frame.depth, [], by simp [Session.at], .nil⟩
  | cons c cs ih =>
    obtain ⟨_, r, h1, h2⟩ := bind_ok.1 h
    obtain ⟨i, hi⟩ := Option.ne_none_iff_exists'.1 (hlive c mem_cons_self)
    obtain ⟨depth, index, hr, hindex⟩ := readName_live (hknown c mem_cons_self) hi h1
    have hknown' : ∀ c' ∈ cs, r.symbols.Knows c' := fun c' hc' =>
      hr ▸ hknown c' (mem_cons_of_mem _ hc')
    have hlive' : ∀ c' ∈ cs, r.frame.slots.localIndex? c' ≠ none := fun c' hc' =>
      hr ▸ hlive c' (mem_cons_of_mem _ hc')
    obtain ⟨depth', is, rfl, his⟩ := ih hknown' hlive' h2
    subst hr
    refine ⟨depth', _ :: is, ?_, .cons ⟨index, rfl, ?_⟩ his⟩
    · simp [Session.at, List.replicate_succ]
    · exact hindex.imp id fun hindex => ⟨i, hindex, hi⟩

section

variable {s r t : Session}

theorem Draft.CapturesSoundly.opened (kind : ScopeKind) (h : s.frame.CapturesSoundly s.symbols) :
    (s.open kind).frame.CapturesSoundly (s.open kind).symbols :=
  h.same (v := .latestCommon) (.single (.openScope kind)) (.refl _) rfl rfl rfl

theorem Draft.CapturesSoundly.closed {c : Scope} {slots : Slots} {marks : Prop} [Decidable marks]
    {k i : Int} (hs : s.frame.CapturesSoundly s.symbols) (hleads : s.frame.Leads v True t.frame)
    (hcloses : s.frame.Closes t.frame c slots)
    (hcode : t.frame.code = if marks then s.frame.code.push ⟨0, .leave k i⟩ else s.frame.code)
    (hat : t = s.at t.frame) : t.frame.CapturesSoundly t.symbols := by
  have hsymbols : t.symbols = s.symbols := by rw [hat]; rfl
  rw [hsymbols]
  split at hcode
  · exact hs.push hleads (.refl _) hcloses.remains.enclosing hcloses.captured hcode trivial
  · exact hs.same hleads (.refl _) hcloses.remains.enclosing hcloses.captured hcode

theorem Emit.leaveScope_capturesSoundly {leaves : Bool} (h : leaveScope v leaves s = .ok ((), t))
    (hs : s.frame.CapturesSoundly s.symbols) : t.frame.CapturesSoundly t.symbols := by
  obtain ⟨c, hcloses, hcode, hat⟩ := leaveScope_closes h
  exact hs.closed (leaveScope_leads h) hcloses hcode hat

theorem Emit.leaveModuleScope_capturesSoundly (h : leaveModuleScope v s = .ok ((), t))
    (hs : s.frame.CapturesSoundly s.symbols) : t.frame.CapturesSoundly t.symbols := by
  obtain ⟨c, hcloses, ⟨n, hcode⟩, hat⟩ := leaveModuleScope_closes h
  exact hs.closed (leaveModuleScope_leads trivial h) hcloses hcode hat

end

theorem ClosureSite.of_reads {is : List Instruction} (hdistinct : sub.header.captured.Nodup)
    (hd : d.Noted) (hcode : d.code.toList ++ is <+: code)
    (hmoments : d.moments.toList ++ List.replicate is.length d.slots <+: moments.toList)
    (hp : p = d.code.size + is.length)
    (his : Forall₂ (fun c ins => ∃ index, ins = ⟨loc.line, .variable .eval [c] index⟩ ∧
      ((∃ j, index = Int.negSucc j ∧ d.captured[j]? = some c) ∨
        ∃ i : Nat, index = i ∧ d.slots.localIndex? c = some i)) sub.header.captured is) :
    ClosureSite moments d.captured code p sub := by
  obtain ⟨hlength, hget⟩ := List.forall₂_iff_get.1 his
  refine ⟨hdistinct, d.code.size, by rw [hp, hlength], fun k c hk => ?_⟩
  obtain ⟨hlt, rfl⟩ := List.getElem?_eq_some_iff.1 hk
  have hlt' : k < is.length := hlength ▸ hlt
  obtain ⟨index, hins, hindex⟩ := hget k hlt hlt'
  refine ⟨loc.line, index, getElem?_of_prefix hcode ?_, hindex.imp id ?_⟩
  · rw [List.getElem?_append_right (by simp), Array.length_toList, Nat.add_sub_cancel_left,
      List.getElem?_eq_getElem hlt']
    exact congrArg some hins
  · rintro ⟨i, hi, hslot⟩
    refine ⟨i, d.slots, hi, ?_, hslot⟩
    rw [← Array.getElem?_toList]
    refine getElem?_of_prefix hmoments ?_
    have hsize : d.code.size = d.moments.toList.length := hd.symm.trans Array.length_toList.symm
    rw [hsize, List.getElem?_append_right (Nat.le_add_right _ _), Nat.add_sub_cancel_left,
      List.getElem?_replicate, if_pos hlt']

theorem Course.capturesSoundly {s t : Session} (h : Course v ds s t)
    (hs : s.frame.CapturesSoundly s.symbols) : t.frame.CapturesSoundly t.symbols := by
  induction h with
  | nil => exact hs
  | step _ hstep ih => exact hstep.capturesSoundly (ih hs)
  | @scope _ _ _ _ _ _ kind _ _ _ hleave ih ihin =>
    exact leaveScope_capturesSoundly hleave (ihin ((ih hs).opened kind))
  | module _ _ hleave ih ihin =>
    exact leaveModuleScope_capturesSoundly hleave (ihin ((ih hs).opened .module))
  | @closure ds es fs s r u w x y t child loc isMethod hc hdefaults hchild hbody hleave hreads hcourse
      hemit ih ihdefaults ihbody ihreads =>
    obtain ⟨c, hcloses, -, hat⟩ := leaveScope_closes hleave
    -- The closure's own frame, which was begun with nothing.
    have hsub : x.frame.CapturesSoundly x.symbols :=
      leaveScope_capturesSoundly hleave
        (ihbody (.of_empty hchild.code hchild.moments hchild.captured))
    have henclosing : x.frame.enclosing = some r.frame.slots.locals :=
      hcloses.remains.enclosing.trans (hbody.remains.enclosing.trans hchild.enclosing)
    -- What it captured was live when it was begun, and is so still.
    have hlive : ∀ c ∈ x.frame.captured, u.frame.slots.localIndex? c ≠ none := by
      intro c hmem
      obtain ⟨outer, hout, hc⟩ := hsub.inView c hmem
      cases henclosing.symm.trans hout
      obtain ⟨j, hj⟩ := mem_locals.1 hc
      exact fun hn => localIndex?_eq_none.1 hn j (hdefaults.locals.1.kept j c hj)
    have hwidens : u.symbols.Grows x.symbols := by
      rw [hat]
      exact hbody.widens.symbols
    have hu := ihdefaults (ih hs)
    have hy := ihreads (hu.same (v := v) .refl hwidens rfl rfl rfl)
    obtain ⟨depth, is, rfl, his⟩ := readNames_live (s := x.at u.frame) hsub.known hlive hreads
    obtain ⟨depth', rfl⟩ := emit_ok hemit
    refine hy.push (v := v) (.single (.subroutine _ _ _ _ _)) (.refl _) rfl rfl rfl
      ⟨?_, hsub.frames⟩
    refine .of_reads (d := u.frame) hsub.distinct hu.noted ?_ ?_ ?_ his
    · exact ⟨[_], by simp [Session.at]; rfl⟩
    · exact ⟨[u.frame.slots], by simp [Session.at]⟩
    · change (u.frame.code ++ is).size = _
      rw [← length_toList, toList_appendList, length_append, length_toList]
  | @definition ds es fs s r w x y t child name isMethod line hc hchild hbody hleave _ hexit hemit
      ih ihbody ihexit =>
    have hsub : y.frame.CapturesSoundly y.symbols :=
      ihexit (leaveScope_capturesSoundly hleave
        (ihbody (.of_empty hchild.code hchild.moments hchild.captured)))
    obtain ⟨c, hcloses, -, hat⟩ := leaveScope_closes hleave
    have henclosing : y.frame.enclosing = none := hexit.remains.enclosing.trans
      (hcloses.remains.enclosing.trans (hbody.remains.enclosing.trans hchild.enclosing))
    have hwidens : r.symbols.Grows y.symbols := by
      have := hexit.widens.symbols
      rw [hat] at this
      exact hbody.widens.symbols.trans this
    obtain ⟨depth, rfl⟩ := emit_ok hemit
    exact (ih hs).push (v := v) (.single (.subroutine _ _ _ _ _)) hwidens rfl rfl rfl
      ⟨hsub.capturesNothing henclosing, hsub.frames⟩

/-- In every frame of a compiled script, the variables that a closure captured are distinct and read
right before it, in order, from live locals or from what the frame itself captured. A negative index
stands for a captured variable of its frame, and neither the script nor a named subroutine has
any. -/
theorem compile_captures_valid {o : Options} {sources : Sources} {depth : Nat} {p : Program}
    {source : String} {script : Script} (h : p.compile o sources depth source = .ok script) :
    (∀ f ∈ script.frame.preorder, f.CapturesValid) ∧ script.frame.CapturesNothing := by
  obtain ⟨t, ht, rfl⟩ := Program.compile_ok h
  obtain ⟨ds, hc⟩ := Program.course o sources depth ht
  have hsound := hc.capturesSoundly (.of_empty rfl rfl rfl)
  exact ⟨hsound.frames, hsound.capturesNothing hc.remains.enclosing⟩

/-- `var x = 1; var f = function () { x; return function () { return x; }; };` -/
def nestedClosures : Program where
  body := [
    .declare {} [⟨{}, some (.ident {} "x"), some (.literal {} (.int 1))⟩],
    .declare {} [⟨{}, some (.ident {} "f"), some (.function {} ⟨none, [], .stmt (.block {} [
      .expression {} (.ident {} "x"),
      .returnValue {} (some (.function {} ⟨none, [], .stmt (.block {} [
        .returnValue {} (some (.ident {} "x"))])⟩))])⟩)⟩]]

theorem nestedClosures_captures_valid : ∃ script,
    nestedClosures.compile {} noSources 0 "main" = .ok script ∧
      script.frame.preorder.map (fun f => f.header.captured.map Symbol.name) = [[], ["x"], ["x"]] ∧
      (∀ f ∈ script.frame.preorder, f.CapturesValid) ∧
      script.frame.CapturesNothing := by
  exact exists_ok_and (by decide +kernel) fun script h => compile_captures_valid h

end Adhoc
