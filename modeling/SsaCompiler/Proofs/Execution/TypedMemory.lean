import SsaCompiler.Proofs.Execution.Machine
import Mathlib.Data.List.Forall2

/-!
Memory with types. It consists of slots, and an address names a part of a slot by the indices that
lead there. Whatever has not been written is undefined, and there is nothing to read or write behind
the end of an array. What a value of a type can be is said by `Val.OfType`, relative to the types of
the slots: addresses stay what they are when slots are added. Reading and writing at an address of
some type gives and takes values of that type.
-/
namespace SsaCompiler.Ir

/-- What is neither a number nor a boolean: a string of the module, a part of a slot, and an array
with its elements. -/
inductive Object
  | string (index : Nat)
  | place (slot : Nat) (path : List Int64)
  | array (elems : List (Val Object))

/-- The part of a type that a path leads to. The length of an array does not matter: the address of
an element exists even where the element does not. -/
def Ty.part? : List Int64 → Ty → Option Ty
  | [], t => some t
  | _ :: path, array elem _ => part? path elem
  | _ :: _, _ => none

theorem Ty.part?_concat {T elem : Ty} {n : Nat} {path : List Int64}
    (h : T.part? path = some (.array elem n)) (i : Int64) : T.part? (path ++ [i]) = some elem := by
  induction path generalizing T with
  | nil =>
    obtain rfl : T = .array elem n := Option.some.inj h
    rfl
  | cons j path ih =>
    cases T with
    | array t k => exact ih h
    | _ => cases h

/-- The values of a type, where the slots of memory have the types `slots`. An integer of eight bits
is kept as the number it stands for. -/
inductive Val.OfType (slots : List Ty) : Val Object → Ty → Prop
  | undef (t : Ty) : OfType slots .undef t
  | int (n : Int64) : OfType slots (.int n) .i64
  | byte (n : Int8) : OfType slots (.int n.toInt64) .i8
  | bool (b : Bool) : OfType slots (.bool b) .i1
  | float (x : Double) : OfType slots (.float x) .double
  | string (i : Nat) : OfType slots (.other (.string i)) (.ptr .i8)
  | place {k : Nat} {path : List Int64} {T t : Ty} : slots[k]? = some T → T.part? path = some t →
      OfType slots (.other (.place k path)) (.ptr t)
  | array {elems : List (Val Object)} {t : Ty} : (∀ v ∈ elems, OfType slots v t) →
      OfType slots (.other (.array elems)) (.array t elems.length)

namespace Val

variable {slots slots' : List Ty} {v w x : Val Object} {t T elem : Ty} {n : Nat} {i : Int64}
  {path : List Int64}

/-- Values keep their types when slots are added. -/
theorem OfType.mono (h : v.OfType slots t) (hgrow : slots <+: slots') : v.OfType slots' t := by
  induction h with
  | undef t => exact .undef t
  | int n => exact .int n
  | byte n => exact .byte n
  | bool b => exact .bool b
  | float x => exact .float x
  | string i => exact .string i
  | place hslot hpart =>
    obtain ⟨more, rfl⟩ := hgrow
    refine .place ?_ hpart
    rw [List.getElem?_append_left (List.getElem?_eq_some_iff.mp hslot).1, hslot]
  | array _ ih => exact .array ih

/-- The elements of an array of `n`, which are undefined if the array is. -/
def elements (n : Nat) : Val Object → List (Val Object)
  | .other (.array elems) => elems
  | _ => List.replicate n .undef

theorem OfType.elements (h : v.OfType slots (.array elem n)) :
    (v.elements n).length = n ∧ ∀ x ∈ v.elements n, x.OfType slots elem := by
  cases h with
  | undef =>
    refine ⟨List.length_replicate, fun x hx => ?_⟩
    rw [List.eq_of_mem_replicate hx]
    exact .undef elem
  | array helems => exact ⟨rfl, helems⟩

/-- The element with a number, if there is one. -/
def element? (n : Nat) (i : Int64) (v : Val Object) : Option (Val Object) :=
  if 0 ≤ i.toInt then (v.elements n)[i.toInt.toNat]? else none

theorem OfType.element? (h : v.OfType slots (.array elem n)) (hx : v.element? n i = some x) :
    x.OfType slots elem := by
  unfold Val.element? at hx
  split at hx
  · exact h.elements.2 x (List.mem_of_getElem? hx)
  · cases hx

/-- An array with another element. -/
def setElement (v : Val Object) (n : Nat) (i : Int64) (x : Val Object) : Val Object :=
  .other (.array ((v.elements n).set i.toInt.toNat x))

theorem OfType.setElement (h : v.OfType slots (.array elem n)) (hx : x.OfType slots elem)
    (i : Int64) : (v.setElement n i x).OfType slots (.array elem n) := by
  obtain ⟨hlength, helems⟩ := h.elements
  have hset : ((v.elements n).set i.toInt.toNat x).length = n := by rw [List.length_set, hlength]
  unfold Val.setElement
  nth_rewrite 2 [← hset]
  refine .array fun y hy => ?_
  rcases List.mem_or_eq_of_mem_set hy with hy | rfl
  · exact helems y hy
  · exact hx

/-- What a value of type `T` has at a path. -/
def read : List Int64 → Ty → Val Object → Option (Val Object)
  | [], _, v => some v
  | i :: path, .array elem n, v => do read path elem (← v.element? n i)
  | _ :: _, _, _ => none

/-- A value of type `T` with another value at a path. -/
def write : List Int64 → Ty → Val Object → Val Object → Option (Val Object)
  | [], _, _, x => some x
  | i :: path, .array elem n, v, x => do
    let y ← write path elem (← v.element? n i) x
    return v.setElement n i y
  | _ :: _, _, _, _ => none

theorem OfType.read (h : v.OfType slots T) (hpart : T.part? path = some t)
    (hx : v.read path T = some x) : x.OfType slots t := by
  induction path generalizing T v with
  | nil =>
    obtain rfl := Option.some.inj hpart
    obtain rfl := Option.some.inj hx
    exact h
  | cons i path ih =>
    cases T with
    | array elem n =>
      obtain ⟨y, hy, hx⟩ := Option.bind_eq_some_iff.mp hx
      exact ih (h.element? hy) hpart hx
    | _ => cases hx

theorem OfType.write (h : v.OfType slots T) (hpart : T.part? path = some t)
    (hx : x.OfType slots t) (hw : v.write path T x = some w) : w.OfType slots T := by
  induction path generalizing T v w with
  | nil =>
    obtain rfl := Option.some.inj hpart
    obtain rfl := Option.some.inj hw
    exact hx
  | cons i path ih =>
    cases T with
    | array elem n =>
      obtain ⟨y, hy, hw⟩ := Option.bind_eq_some_iff.mp hw
      obtain ⟨z, hz, hw⟩ := Option.bind_eq_some_iff.mp hw
      obtain rfl := Option.some.inj hw
      exact h.setElement (ih (h.element? hy) hpart hz) i
    | _ => cases hw

end Val

/-- A part of memory of some type. -/
structure Slot where
  ty : Ty
  content : Val Object

/-- The memory, and the state of whatever else a call can change. -/
structure Heap (η : Type) where
  slots : List Slot
  outside : η

namespace Heap

variable {η : Type} {h h' : Heap η} {v a x : Val Object} {t elem : Ty} {n : Nat}

def types (h : Heap η) : List Ty := h.slots.map (·.ty)

/-- Every slot holds a value of its type. -/
def Typed (h : Heap η) : Prop := ∀ s ∈ h.slots, s.content.OfType h.types s.ty

/-- The memory `h'` is typed and has the slots of `h`, with their types. -/
structure Extends (h h' : Heap η) : Prop where
  types : h.types <+: h'.types
  typed : h'.Typed

theorem Extends.refl (htyped : h.Typed) : h.Extends h := ⟨List.prefix_rfl, htyped⟩

def alloca (h : Heap η) (t : Ty) : Val Object × Heap η :=
  (.other (.place h.slots.length []), { h with slots := h.slots ++ [⟨t, .undef⟩] })

/-- Reads at an address. A string is there to read its first byte. -/
def load (strings : List String) (h : Heap η) : Val Object → Option (Val Object)
  | .other (.place k path) => do
    let s ← h.slots[k]?
    s.content.read path s.ty
  | .other (.string i) => do
    let text ← strings[i]?
    return .int ((text.toUTF8.data[0]?).getD 0).toInt8.toInt64
  | _ => none

def store (h : Heap η) (x : Val Object) : Val Object → Option (Heap η)
  | .other (.place k path) => do
    let s ← h.slots[k]?
    let content ← s.content.write path s.ty x
    return { h with slots := h.slots.set k { s with content } }
  | _ => none

/-- The address of an element. -/
def element : Val Object → Val Object → Option (Val Object)
  | .other (.place k path), .int i => some (.other (.place k (path ++ [i])))
  | .undef, _ | _, .undef => some .undef
  | _, _ => none

theorem getElem?_types {k : Nat} {s : Slot} (hs : h.slots[k]? = some s) :
    h.types[k]? = some s.ty := by
  simp [types, hs]

theorem extends_alloca (htyped : h.Typed) (t : Ty) : h.Extends (h.alloca t).2 := by
  have htypes : (h.alloca t).2.types = h.types ++ [t] := by simp [alloca, types]
  refine ⟨htypes ▸ List.prefix_append _ _, fun s hs => ?_⟩
  rcases List.mem_append.mp hs with hs | hs
  · exact (htyped s hs).mono (htypes ▸ List.prefix_append _ _)
  · rw [List.mem_singleton.mp hs]
    exact .undef t

theorem ofType_alloca (h : Heap η) (t : Ty) :
    (h.alloca t).1.OfType (h.alloca t).2.types (.ptr t) := by
  refine .place (T := t) ?_ rfl
  simp [alloca, types]

theorem ofType_load {strings : List String} (htyped : h.Typed) (ha : a.OfType h.types (.ptr t))
    (hload : h.load strings a = some x) : x.OfType h.types t := by
  cases ha with
  | undef => cases hload
  | string i =>
    obtain ⟨text, _, hx⟩ := Option.bind_eq_some_iff.mp hload
    rw [← Option.some.inj hx]
    exact .byte _
  | place hslot hpart =>
    obtain ⟨s, hs, hx⟩ := Option.bind_eq_some_iff.mp hload
    obtain rfl := Option.some.inj (hslot.symm.trans (getElem?_types hs))
    exact (htyped s (List.mem_of_getElem? hs)).read hpart hx

theorem extends_store (htyped : h.Typed) (hx : x.OfType h.types t)
    (ha : a.OfType h.types (.ptr t)) (hstore : h.store x a = some h') : h.Extends h' := by
  cases ha with
  | undef => cases hstore
  | string i => cases hstore
  | @place k path T _ hslot hpart =>
    obtain ⟨s, hs, hstore⟩ := Option.bind_eq_some_iff.mp hstore
    obtain ⟨content, hcontent, hstore⟩ := Option.bind_eq_some_iff.mp hstore
    obtain rfl := Option.some.inj hstore
    obtain rfl := Option.some.inj (hslot.symm.trans (getElem?_types hs))
    have htypes : (h.slots.set k { s with content }).map (·.ty) = h.types := by
      obtain ⟨hlt, rfl⟩ := List.getElem?_eq_some_iff.mp hs
      rw [List.map_set, types]
      exact List.ext_getElem (by simp) fun j _ _ => by simp +contextual [List.getElem_set]
    refine ⟨htypes ▸ List.prefix_rfl, fun s' hs' => ?_⟩
    simp only [types, htypes]
    rcases List.mem_or_eq_of_mem_set hs' with hs' | rfl
    · exact htyped s' hs'
    · exact (htyped s (List.mem_of_getElem? hs)).write hpart hx hcontent

theorem ofType_element {slots : List Ty} {i : Val Object}
    (ha : a.OfType slots (.ptr (.array elem n))) (hi : i.OfType slots .i64)
    (hx : element a i = some x) : x.OfType slots (.ptr elem) := by
  cases ha with
  | undef =>
    rw [← Option.some.inj hx]
    exact .undef _
  | place hslot hpart =>
    cases hi with
    | undef =>
      rw [← Option.some.inj hx]
      exact .undef _
    | int i =>
      rw [← Option.some.inj hx]
      exact .place hslot (Ty.part?_concat hpart i)

end Heap

end SsaCompiler.Ir
