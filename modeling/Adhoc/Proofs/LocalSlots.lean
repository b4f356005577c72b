import Adhoc.Proofs.History

namespace Adhoc

open Slots

namespace Slots

variable {a b c slots : Slots} {x y : Symbol} {i : Nat}

/-- Live locals have the same slots as before, and every other symbol has at most one. -/
structure Extends (a b : Slots) : Prop where
  kept : ∀ i x, a.local? i = some x → b.local? i = some x
  old : ∀ i j x, a.local? j = some x → b.local? i = some x → a.local? i = some x
  single : ∀ i j x, a.localIndex? x = none → b.local? i = some x → b.local? j = some x → i = j

namespace Extends

theorem of_local? (h : b.local? = a.local?) : a.Extends b where
  kept i x hx := by rwa [h]
  old i j x _ hx := by rwa [h] at hx
  single i j x hn hx := absurd (h ▸ hx) (localIndex?_eq_none.1 hn i)

theorem refl (slots : Slots) : slots.Extends slots := of_local? rfl

theorem trans (h : a.Extends b) (h' : b.Extends c) : a.Extends c where
  kept i x hx := h'.kept i x (h.kept i x hx)
  old i j x hj hi := h.old i j x hj (h'.old i j x (h.kept j x hj) hi)
  single i j x hn hi hj := by
    cases hb : b.localIndex? x with
    | none => exact h'.single i j x hb hi hj
    | some k =>
      have hk := (localIndex?_eq_some.1 hb).1
      exact h.single i j x hn (h'.old i k x hk hi) (h'.old j k x hk hj)

theorem addLocal (h : slots.localIndex? x = none) : slots.Extends (slots.addLocal (some x)).2 := by
  have hcases : ∀ {i y}, (slots.addLocal (some x)).2.local? i = some y →
      slots.local? i = some y ∨ y = x ∧ i = (slots.addLocal (some x)).1 := by
    intro i y hi
    rw [addLocal_local?] at hi
    split at hi
    · exact .inr ⟨(Option.some.inj hi).symm, ‹_›⟩
    · exact .inl hi
  refine ⟨fun i y hy => ?_, fun i j y hj hi => ?_, fun i j y hn hi hj => ?_⟩
  · rw [addLocal_local?, if_neg, hy]
    rintro rfl
    rw [addLocal_empty] at hy
    cases hy
  · refine (hcases hi).resolve_right ?_
    rintro ⟨rfl, -⟩
    exact localIndex?_eq_none.1 h j hj
  · have hn := localIndex?_eq_none.1 hn
    exact ((hcases hi).resolve_left (hn i)).2.trans ((hcases hj).resolve_left (hn j)).2.symm

theorem localIndex? (h : a.Extends b) (hi : a.localIndex? x = some i) : b.localIndex? x = some i := by
  obtain ⟨hx, hfirst⟩ := localIndex?_eq_some.1 hi
  exact localIndex?_eq_some.2 ⟨h.kept i x hx, fun j hj hb => hfirst j hj (h.old j i x hx hb)⟩

theorem localIndex?_none (h : a.Extends b) (hb : b.localIndex? x = none) : a.localIndex? x = none :=
  localIndex?_eq_none.2 fun j hj => localIndex?_eq_none.1 hb j (h.kept j x hj)

theorem freed (h : a.Extends b) (hsub : ∀ i x, c.local? i = some x → b.local? i = some x)
    (hkept : ∀ i x, b.local? i = some x → a.localIndex? x ≠ none → c.local? i = some x) :
    a.Extends c where
  kept i x hx := hkept i x (h.kept i x hx) fun hn => localIndex?_eq_none.1 hn i hx
  old i j x hj hi := h.old i j x hj (hsub i x hi)
  single i j x hn hi hj := h.single i j x hn (hsub i x hi) (hsub j x hj)

end Extends

theorem freeLocal_sub (h : (slots.freeLocal y).local? i = some x) : slots.local? i = some x := by
  rw [freeLocal_local?] at h
  split at h
  · cases h
  · exact h

theorem foldl_freeLocal_sub {xs : List Symbol} (h : (xs.foldl freeLocal slots).local? i = some x) :
    slots.local? i = some x := by
  induction xs generalizing slots with
  | nil => exact h
  | cons y ys ih => exact freeLocal_sub (ih h)

theorem foldl_freeLocal_kept {xs : List Symbol} (hx : x ∉ xs) (h : slots.local? i = some x) :
    (xs.foldl freeLocal slots).local? i = some x := by
  induction xs generalizing slots with
  | nil => exact h
  | cons y ys ih =>
    simp only [List.mem_cons, not_or] at hx
    refine ih hx.2 ?_
    rw [freeLocal_local?, if_neg, h]
    intro hy
    exact hx.1 (Option.some.inj (h.symm.trans (localIndex?_eq_some.1 hy).1))

end Slots

namespace Draft

variable {known : Symbol → Prop} {d e : Draft} {ds : List Deed} {x : Symbol}

theorem Change.extends_slots (h : d.Change known e ds) : d.slots.Extends e.slots := by
  cases h with
  | none h => exact h ▸ .refl _
  | addLocal _ hn h => exact h ▸ .addLocal hn
  | capture _ hc hx h => exact h ▸ .addLocal (captures_localIndex? hc hx)
  | addStatic _ _ h | addMember _ h => exact h ▸ .of_local? (addStatic_local? _)
  | addStatics h =>
    exact h ▸ .of_local? (foldl_view (fun _ c => addStatic_local? c) _)

theorem Change.noted_local (h : d.Change known e ds) (hx : x ∈ e.top.locals) :
    x ∈ d.top.locals ∨ d.slots.localIndex? x = .none ∧ .owns x.name ∈ ds := by
  cases h with
  | none _ h | addStatics _ h | capture _ _ _ _ h => exact .inl (top_congr h ▸ hx)
  | addLocal _ hn _ hd he =>
    rw [top_of_bare he] at hx
    rw [top_of_bare hd]
    refine (Scope.mem_note.1 hx).imp id ?_
    rintro rfl
    exact ⟨hn, List.mem_singleton.2 rfl⟩
  | addStatic _ _ _ hd he | addMember _ _ hd he =>
    rw [top_of_bare he] at hx
    rw [top_of_bare hd]
    exact .inl hx

end Draft

namespace Course

variable {v : Version} {ds : List Deed} {s t : Session}

theorem locals (h : Course v ds s t) : s.frame.slots.Extends t.frame.slots ∧
    ∀ x ∈ t.frame.top.locals, x ∈ s.frame.top.locals ∨ s.frame.slots.localIndex? x = none := by
  refine h.fold (P := fun _ d e => d.slots.Extends e.slots ∧
      ∀ x ∈ e.top.locals, x ∈ d.top.locals ∨ d.slots.localIndex? x = none)
    (fun _ => ⟨.refl _, fun _ hx => .inl hx⟩) (fun h h' => ⟨h.1.trans h'.1, fun x hx => ?_⟩)
    (fun hstep => ?_) (fun {es r u t kind _} hin hleave ih => ?_) (fun hin hleave ih => ?_)
    fun _ _ _ _ _ _ => ⟨.refl _, fun _ hx => .inl hx⟩
  · rcases h'.2 x hx with hx | hx
    · exact h.2 x hx
    · exact .inr (h.1.localIndex?_none hx)
  · obtain ⟨_, _, -, hchange, -⟩ := hstep.act
    exact ⟨hchange.extends_slots, fun _ hx => (hchange.noted_local hx).imp_right And.left⟩
  · obtain ⟨c, hcloses, -, -⟩ := Emit.leaveScope_closes hleave
    have hnew : ∀ x ∈ c.locals, r.frame.slots.localIndex? x = none := by
      intro x hx
      refine (ih.2 x ?_).resolve_left fun h => nomatch h
      rwa [hcloses.top]
    refine ⟨?_, fun x hx => .inl (Draft.top_congr (hin.closed hcloses) ▸ hx)⟩
    rw [hcloses.slots, Draft.left]
    split
    · exact ih.1.freed (fun _ _ => foldl_freeLocal_sub) fun i x hx hlive =>
        foldl_freeLocal_kept (fun hmem => hlive (hnew x hmem)) hx
    · exact ih.1
  · obtain ⟨c, hcloses, -, -⟩ := Emit.leaveModuleScope_closes hleave
    refine ⟨ih.1.trans (.of_local? ?_), fun x hx => .inl (Draft.top_congr (hin.closed hcloses) ▸ hx)⟩
    rw [hcloses.slots, Draft.left]
    split
    · exact foldl_view (fun _ _ => freeStatic_local?) _
    · rfl

end Course

end Adhoc
