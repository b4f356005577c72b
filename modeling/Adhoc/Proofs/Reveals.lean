import Adhoc.Container.Writer
import Adhoc.Proofs.Varint
import Mathlib.Data.List.Forall2

namespace Adhoc

open List

/-- Streams that start with `a` and with `b` are equal only if `P`, and go on equally after them. -/
def Reveals (a b : List UInt8) (P : Prop) : Prop := ∀ r s, a ++ r = b ++ s → P ∧ r = s

namespace Reveals

variable {a b c d : List UInt8} {P Q : Prop}

theorem same (a : List UInt8) : Reveals a a True := fun _ _ h => ⟨trivial, append_cancel_left h⟩

theorem mono (h : Reveals a b P) (hPQ : P → Q) : Reveals a b Q := fun r s hrs =>
  let ⟨hP, hr⟩ := h r s hrs
  ⟨hPQ hP, hr⟩

theorem append (h : Reveals a b P) (h' : P → Reveals c d Q) : Reveals (a ++ c) (b ++ d) (P ∧ Q) := by
  intro r s hrs
  rw [append_assoc, append_assoc] at hrs
  obtain ⟨hP, htail⟩ := h _ _ hrs
  obtain ⟨hQ, hr⟩ := h' hP r s htail
  exact ⟨⟨hP, hQ⟩, hr⟩

theorem of_length (hl : a.length = b.length) (h : a = b → P) : Reveals a b P := by
  intro r s hrs
  obtain ⟨hab, hr⟩ := append_inj hrs hl
  exact ⟨h hab, hr⟩

theorem guard (written : Bool) (h : written = true → Reveals a b P) :
    Reveals (if written then a else []) (if written then b else []) (written = true → P) := by
  cases written with
  | false => exact (same []).mono fun _ hf => by simp at hf
  | true => exact (h rfl).mono fun hP _ => hP

theorem flatMap {α : Type} {write : α → List UInt8} {R : α → α → Prop} {xs ys : List α}
    (hl : xs.length = ys.length)
    (h : ∀ x ∈ xs, ∀ y ∈ ys, Reveals (write x) (write y) (R x y)) :
    Reveals (xs.flatMap write) (ys.flatMap write) (Forall₂ R xs ys) := by
  induction xs generalizing ys with
  | nil =>
    obtain rfl := length_eq_zero_iff.1 hl.symm
    exact (same []).mono fun _ => .nil
  | cons x xs ih =>
    obtain ⟨y, ys, rfl⟩ := exists_cons_of_length_eq_add_one hl.symm
    have hrest := ih (by simpa using hl) fun x hx y hy =>
      h x (mem_cons_of_mem _ hx) y (mem_cons_of_mem _ hy)
    have hfirst := h x mem_cons_self y mem_cons_self
    exact (hfirst.append fun _ => hrest).mono fun ⟨hx, hxs⟩ => .cons hx hxs

end Reveals

/-- The names of a table as a container stores them, in the order of their ids. -/
def SymbolTable.stored (t : SymbolTable) : List (List UInt8) := t.entries.toList.map Symbol.bytes

namespace Format

variable {f : Format}

theorem fixed_reveals {width n m : Nat} (hn : n < 256 ^ width) (hm : m < 256 ^ width) :
    Reveals (f.fixed width n) (f.fixed width m) (n = m) := by
  refine .of_length (by simp) fun h => ?_
  unfold fixed at h
  split at h
  · exact bigEndian_inj hn hm (reverse_injective h)
  · exact bigEndian_inj hn hm h

/-- Whether a number is a signed number of so many bytes. -/
def Signed (width : Nat) (i : Int) : Prop := -(256 ^ width : Nat) ≤ 2 * i ∧ 2 * i < (256 ^ width : Nat)

theorem Signed.of_bounds {width : Nat} {i b : Int} (hb : 2 * b = (256 ^ width : Nat)) (hle : -b ≤ i)
    (hlt : i < b) : Signed width i := by
  constructor <;> omega

theorem signed_reveals {width : Nat} {i j : Int} (hi : Signed width i) (hj : Signed width j) :
    Reveals (f.signed width i) (f.signed width j) (i = j) := by
  have hpos : 0 < ((256 ^ width : Nat) : Int) := by positivity
  have hmod (k : Int) : ((k % (256 ^ width : Nat)).toNat : Int) = k % (256 ^ width : Nat) :=
    Int.toNat_of_nonneg (Int.emod_nonneg _ hpos.ne')
  have hlt (k : Int) : (k % (256 ^ width : Nat)).toNat < 256 ^ width := by
    have := Int.emod_lt_of_pos k hpos
    omega
  refine (fixed_reveals (hlt i) (hlt j)).mono fun h => ?_
  have hij : i % (256 ^ width : Nat) = j % (256 ^ width : Nat) := by
    rw [← hmod i, ← hmod j, h]
  -- a number in range is its own balanced residue
  have hself (k : Int) (hk : Signed width k) : k = (k % (256 ^ width : Nat)).bmod (256 ^ width) := by
    obtain ⟨hlow, hhigh⟩ := hk
    rw [Int.emod_bmod, Int.bmod_eq_of_le (by omega) (by omega)]
  rw [hself i hi, hself j hj, hij]

theorem signedWord_reveals {i j : Int} (hi : isSignedWord i = true) (hj : isSignedWord j = true) :
    Reveals (f.signed 4 i) (f.signed 4 j) (i = j) := by
  simp only [isSignedWord, Bool.and_eq_true, decide_eq_true_eq] at hi hj
  exact signed_reveals ⟨by omega, by omega⟩ ⟨by omega, by omega⟩

theorem count_reveals {n m : Nat} (hn : n < 2 ^ 31) (hm : m < 2 ^ 31) :
    Reveals (f.count n) (f.count m) (n = m) :=
  fixed_reveals (by omega) (by omega)

theorem flag_reveals (b c : Bool) : Reveals (flag b) (flag c) (b = c) :=
  .of_length rfl fun h => by revert h; cases b <;> cases c <;> decide

/-- The container writes the two symbols alike: by id where there is a table, else in place. -/
def Same (f : Format) (x y : Symbol) : Prop :=
  if f.version.has .symbolTable then x.id = y.id else x.bytes = y.bytes

/-- The symbol fits into the container: its id into a machine word, or its length into two bytes. -/
def Holds (f : Format) (x : Symbol) : Prop :=
  if f.version.has .symbolTable then x.id < 2 ^ 64 else x.bytes.length < 2 ^ 15

theorem inlineName_reveals {x y : Symbol} (hx : x.bytes.length < 2 ^ 15)
    (hy : y.bytes.length < 2 ^ 15) :
    Reveals (f.inlineName x) (f.inlineName y) (x.bytes = y.bytes) := by
  have hlength : Reveals (f.fixed 2 x.bytes.length) (f.fixed 2 y.bytes.length)
      (x.bytes.length = y.bytes.length) := fixed_reveals (by omega) (by omega)
  exact (hlength.append fun hl => .of_length hl id).mono And.right

theorem symbol_reveals {x y : Symbol} (hx : f.Holds x) (hy : f.Holds y) :
    Reveals (f.symbol x) (f.symbol y) (f.Same x y) := by
  unfold Holds at hx hy
  unfold symbol Same
  split
  · rename_i htable
    rw [if_pos htable] at hx hy
    exact fun r s h => Varint.encode_append_inj hx hy h
  · rename_i htable
    rw [if_neg htable] at hx hy
    exact inlineName_reveals hx hy

/-- A list of symbols fits: its length into a word, and each symbol. -/
def HoldsAll (f : Format) (xs : List Symbol) : Prop := xs.length < 2 ^ 31 ∧ ∀ x ∈ xs, f.Holds x

theorem symbols_reveals {xs ys : List Symbol} (hx : f.HoldsAll xs) (hy : f.HoldsAll ys) :
    Reveals (f.symbols xs) (f.symbols ys) (Forall₂ f.Same xs ys) :=
  ((count_reveals hx.1 hy.1).append fun hl => .flatMap hl fun x hx' y hy' =>
    symbol_reveals (hx.2 x hx') (hy.2 y hy')).mono And.right

theorem indexed_reveals {index : Nat → Int} {xs ys : List Symbol} (i : Nat)
    (hl : xs.length = ys.length) (hx : ∀ x ∈ xs, f.Holds x) (hy : ∀ y ∈ ys, f.Holds y) :
    Reveals (f.indexed index i xs) (f.indexed index i ys) (Forall₂ f.Same xs ys) := by
  induction xs generalizing ys i with
  | nil =>
    obtain rfl := length_eq_zero_iff.1 hl.symm
    exact (Reveals.same []).mono fun _ => .nil
  | cons x xs ih =>
    obtain ⟨y, ys, rfl⟩ := exists_cons_of_length_eq_add_one hl.symm
    have hfirst : Reveals (f.symbol x) (f.symbol y) (f.Same x y) :=
      symbol_reveals (hx x mem_cons_self) (hy y mem_cons_self)
    have hrest := ih (i + 1) (by simpa using hl) (fun x h => hx x (mem_cons_of_mem _ h))
      fun y h => hy y (mem_cons_of_mem _ h)
    exact ((hfirst.append fun _ => .same (f.signed 4 (index i))).append fun _ => hrest).mono
      fun ⟨⟨hxy, _⟩, hxs⟩ => .cons hxy hxs

theorem parameters_reveals {xs ys : List Symbol} (hx : f.HoldsAll xs) (hy : f.HoldsAll ys) :
    Reveals (f.parameters xs) (f.parameters ys)
      (f.version.has .parameterList = true → Forall₂ f.Same xs ys) := by
  unfold parameters
  cases f.version.has .parameterList with
  | false => exact (Reveals.same []).mono fun _ hf => by simp at hf
  | true =>
    have hnames (hl : xs.length = ys.length) :
        Reveals
          (if f.version.has .parameterIndices then f.indexed (fun i => 1 + i) 0 xs
            else xs.flatMap f.symbol)
          (if f.version.has .parameterIndices then f.indexed (fun i => 1 + i) 0 ys
            else ys.flatMap f.symbol) (Forall₂ f.Same xs ys) := by
      split
      · exact indexed_reveals 0 hl hx.2 hy.2
      · exact .flatMap hl fun x hx' y hy' => symbol_reveals (hx.2 x hx') (hy.2 y hy')
    exact ((count_reveals hx.1 hy.1).append hnames).mono fun h _ => h.2

theorem captured_reveals {xs ys : List Symbol} (hx : f.HoldsAll xs) (hy : f.HoldsAll ys) :
    Reveals (f.captured xs) (f.captured ys)
      (f.version.has .capturedList = true → Forall₂ f.Same xs ys) := by
  unfold captured
  cases f.version.has .capturedList with
  | false => exact (Reveals.same []).mono fun _ hf => by simp at hf
  | true =>
    have hnames (hl : xs.length = ys.length) :
        Reveals (f.indexed (fun i => -(i + 1)) 0 xs) (f.indexed (fun i => -(i + 1)) 0 ys)
          (Forall₂ f.Same xs ys) := indexed_reveals 0 hl hx.2 hy.2
    exact (((count_reveals hx.1 hy.1).append hnames).append fun _ => .same (f.count 0)).mono
      fun h _ => h.1.2

/-- A table fits: its size and the lengths of its names into machine words. -/
def HoldsTable (t : SymbolTable) : Prop :=
  t.entries.size < 2 ^ 64 ∧ ∀ x ∈ t.entries, x.bytes.length < 2 ^ 64

theorem tableEntry_reveals {x y : Symbol} (hx : x.bytes.length < 2 ^ 64)
    (hy : y.bytes.length < 2 ^ 64) : Reveals (tableEntry x) (tableEntry y) (x.bytes = y.bytes) := by
  have hlength : Reveals (Varint.encode x.bytes.length) (Varint.encode y.bytes.length)
      (x.bytes.length = y.bytes.length) := fun r s h => Varint.encode_append_inj hx hy h
  exact (hlength.append fun hl => .of_length hl id).mono And.right

theorem symbolTable_reveals {t u : SymbolTable} (ht : HoldsTable t) (hu : HoldsTable u) :
    Reveals (symbolTable t) (symbolTable u) (t.stored = u.stored) := by
  have hsize : Reveals (Varint.encode t.entries.size) (Varint.encode u.entries.size)
      (t.entries.size = u.entries.size) := fun r s h => Varint.encode_append_inj ht.1 hu.1 h
  have hentries (hl : t.entries.size = u.entries.size) :
      Reveals (t.entries.toList.flatMap tableEntry) (u.entries.toList.flatMap tableEntry)
        (Forall₂ (fun x y => x.bytes = y.bytes) t.entries.toList u.entries.toList) :=
    .flatMap (by rw [Array.length_toList, Array.length_toList, hl]) fun x hx y hy =>
      tableEntry_reveals (ht.2 x (Array.mem_toList_iff.1 hx)) (hu.2 y (Array.mem_toList_iff.1 hy))
  refine (hsize.append hentries).mono fun h => ?_
  rw [SymbolTable.stored, SymbolTable.stored, ← forall₂_eq_eq_eq, forall₂_map_left_iff,
    forall₂_map_right_iff]
  exact h.2

end Format
end Adhoc
