import Adhoc.Proofs.IncludeChains

namespace Adhoc

/-- Whether the part says where code comes from. -/
def Part.isMark : Part → Bool
  | .stmt (.sourceFile ..) | .stmt (.includeFile ..) => true
  | _ => false

section

variable (v : Version) (allowed : String → String → Prop)

mutual

/-- The source is named `n` before the part and `m` after it, and every include in the part stands
where its path allows the name. -/
inductive Part.Names : Part → String → String → Prop
  | source {loc : Loc} {path n : String} : Part.Names (.stmt (.sourceFile loc path)) n path
  | inclusion {loc : Loc} {path n : String} : allowed path n →
    Part.Names (.stmt (.includeFile loc path)) n n
  | plain {p : Part} {n m : String} : p.isMark = false → p.body? = none →
    NamesAll (p.parts v) n m → Part.Names p n m
  | routine {p : Part} {b : Node} {n m k : String} : p.body? = some b →
    NamesAll (p.parts v) n m → Part.Names b.part n k → Part.Names p n m

/-- So it is with parts that come one after the other. -/
inductive NamesAll : List Part → String → String → Prop
  | nil {n : String} : NamesAll [] n n
  | cons {p : Part} {ps : List Part} {n k m : String} : Part.Names p n k → NamesAll ps k m →
    NamesAll (p :: ps) n m

end

end

variable {v : Version} {allowed : String → String → Prop} {n m path : String} {p : Part}
  {ps : List Part}

namespace NamesAll

@[simp] theorem nil_iff : NamesAll v allowed [] n m ↔ n = m := by
  constructor
  · intro h
    cases h
    rfl
  · rintro rfl
    exact .nil

theorem cons_iff : NamesAll v allowed (p :: ps) n m ↔
    ∃ k, p.Names v allowed n k ∧ NamesAll v allowed ps k m := by
  constructor
  · intro h
    cases h with
    | cons h h' => exact ⟨_, h, h'⟩
  · rintro ⟨k, h, h'⟩
    exact .cons h h'

theorem singleton_iff : NamesAll v allowed [p] n m ↔ p.Names v allowed n m := by
  simp [cons_iff]

theorem pair_iff {q : Part} : NamesAll v allowed [p, q] n m ↔
    ∃ k, p.Names v allowed n k ∧ q.Names v allowed k m := by
  simp only [cons_iff, nil_iff, exists_eq_right]

theorem append_iff {qs : List Part} : NamesAll v allowed (ps ++ qs) n m ↔
    ∃ k, NamesAll v allowed ps n k ∧ NamesAll v allowed qs k m := by
  induction ps generalizing n with
  | nil => simp
  | cons p ps ih =>
    simp only [List.cons_append, cons_iff, ih]
    constructor
    · rintro ⟨j, hp, k, hps, hqs⟩
      exact ⟨k, ⟨j, hp, hps⟩, hqs⟩
    · rintro ⟨k, ⟨j, hp, hps⟩, hqs⟩
      exact ⟨j, hp, k, hps, hqs⟩

end NamesAll

namespace Part.Names

variable {loc : Loc}

theorem all (h : p.Names v allowed n m) (hp : p.isMark = false) :
    NamesAll v allowed (p.parts v) n m := by
  cases h with
  | source => cases hp
  | inclusion => cases hp
  | plain _ _ h => exact h
  | routine _ h _ => exact h

theorem same (h : p.Names v allowed n m) (hp : p.isMark = false) (hparts : p.parts v = []) : n = m :=
  NamesAll.nil_iff.1 (hparts ▸ h.all hp)

theorem only {q : Part} (h : p.Names v allowed n m) (hp : p.isMark = false)
    (hparts : p.parts v = [q]) : q.Names v allowed n m :=
  NamesAll.singleton_iff.1 (hparts ▸ h.all hp)

theorem both {q r : Part} (h : p.Names v allowed n m) (hp : p.isMark = false)
    (hparts : p.parts v = [q, r]) : ∃ k, q.Names v allowed n k ∧ r.Names v allowed k m :=
  NamesAll.pair_iff.1 (hparts ▸ h.all hp)

theorem body {b : Node} (h : p.Names v allowed n m) (hb : p.body? = some b) :
    ∃ k, b.part.Names v allowed n k := by
  cases h with
  | source => cases hb
  | inclusion => cases hb
  | plain _ hnone => rw [hb] at hnone; cases hnone
  | routine hb' _ h => exact ⟨_, Option.some.inj (hb.symm.trans hb') ▸ h⟩

theorem allowed_of_include (h : Part.Names v allowed (.stmt (.includeFile loc path)) n m) :
    n = m ∧ allowed path n := by
  cases h with
  | inclusion h => exact ⟨rfl, h⟩
  | plain h => cases h
  | routine h => cases h

theorem eq_of_source (h : Part.Names v allowed (.stmt (.sourceFile loc path)) n m) : m = path := by
  cases h with
  | source => rfl
  | plain h => cases h
  | routine h => cases h

end Part.Names

theorem NamesAll.exists_of (h : ∀ p ∈ ps, ∀ n, ∃ m, p.Names v (fun _ _ => True) n m) (n : String) :
    ∃ m, NamesAll v (fun _ _ => True) ps n m := by
  induction ps generalizing n with
  | nil => exact ⟨n, .nil⟩
  | cons p ps ih =>
    rw [List.forall_mem_cons] at h
    obtain ⟨k, hk⟩ := h.1 n
    obtain ⟨m, hm⟩ := ih h.2 k
    exact ⟨m, .cons hk hm⟩

/-- Where every name is allowed, every part has one after it. -/
theorem Part.exists_names (p : Part) (n : String) : ∃ m, p.Names v (fun _ _ => True) n m := by
  induction p using Part.induct v generalizing n with
  | h p hparts hbody =>
    obtain ⟨m, hm⟩ := NamesAll.exists_of hparts n
    cases hb : p.body? with
    | some b =>
      obtain ⟨k, hk⟩ := hbody b hb n
      exact ⟨m, .routine hb hm hk⟩
    | none =>
      cases hp : p.isMark with
      | false => exact ⟨m, .plain hp hb hm⟩
      | true =>
        unfold Part.isMark at hp
        split at hp
        · exact ⟨_, .source⟩
        · exact ⟨_, .inclusion trivial⟩
        · cases hp

theorem exists_namesAll (ps : List Part) (n : String) : ∃ m, NamesAll v (fun _ _ => True) ps n m :=
  NamesAll.exists_of (fun p _ => p.exists_names) n

end Adhoc
