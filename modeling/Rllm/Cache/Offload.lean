import Mathlib.Data.List.AList
import Mathlib.Data.Finset.Card
import Rllm.Core.Request
import Rllm.Library.Tensor

/-! # The CPU offload store

Blocks moved out of the GPU lie in one buffer of bytes, each in a slot of its
own. The store is a map from requests and blocks to bytes that is full when
every slot is taken.
-/

namespace Rllm

/-- Zeroed memory of at least one byte. A size that no allocation can have panics. -/
def pinnedAlloc (bytes : ℕ) : Option (List UInt8) :=
  if max bytes 1 ≤ 2 ^ 63 - 64 then some (List.replicate (max bytes 1) 0) else none

/-- What `copy_nonoverlapping` leaves behind: the bytes lie in the buffer from the offset on. -/
def copyAt (buffer : List UInt8) (offset : ℕ) (bytes : List UInt8) : List UInt8 :=
  buffer.take offset ++ bytes ++ buffer.drop (offset + bytes.length)

/-- The bytes of a raw slice of the buffer. -/
def sliceAt (buffer : List UInt8) (offset len : ℕ) : List UInt8 := (buffer.drop offset).take len

structure CpuKvOffloadStore where
  blockSizeBytes : ℕ
  capacityBlocks : ℕ
  /-- A stack with its top at the end. -/
  freeSlots : List ℕ
  slots : AList fun _ : RequestId × BlockId => ℕ
  storage : List UInt8

namespace CpuKvOffloadStore

/-- The store of a capacity and a block size, whose product must not overflow. -/
def new (capacityBlocks blockSizeBytes : ℕ) : Option CpuKvOffloadStore :=
  if capacityBlocks * blockSizeBytes < 2 ^ 64 then
    (pinnedAlloc (capacityBlocks * blockSizeBytes)).map fun storage =>
      { blockSizeBytes, capacityBlocks, freeSlots := (List.range capacityBlocks).reverse,
        slots := ∅, storage }
  else none

variable (s : CpuKvOffloadStore) (requestId : RequestId) (blockId : BlockId)

/-- Copy the bytes of a block into a slot and note the slot. -/
def fill (key : RequestId × BlockId) (slot : ℕ) (bytes : List UInt8) : CpuKvOffloadStore :=
  { s with
    storage := copyAt s.storage (slot * s.blockSizeBytes) bytes
    slots := s.slots.insert key slot }

def put (bytes : List UInt8) : Except String Unit × CpuKvOffloadStore :=
  if bytes.length ≠ s.blockSizeBytes then
    let len := bytes.length
    let expected := s.blockSizeBytes
    (.error s!"offloaded block has {len} bytes, expected {expected}", s)
  else
    match s.slots.lookup (requestId, blockId) with
    | some slot => (.ok (), s.fill (requestId, blockId) slot bytes)
    | none =>
      match s.freeSlots.getLast? with
      | some slot =>
        (.ok (), { s with freeSlots := s.freeSlots.dropLast }.fill (requestId, blockId) slot bytes)
      | none => (.error "CPU KV offload store is full", s)

def get : Option (List UInt8) :=
  match s.slots.lookup (requestId, blockId) with
  | some slot => some (sliceAt s.storage (slot * s.blockSizeBytes) s.blockSizeBytes)
  | none => none

def remove : Bool × CpuKvOffloadStore :=
  match s.slots.lookup (requestId, blockId) with
  | some slot =>
    (true,
      { s with
        slots := s.slots.erase (requestId, blockId)
        freeSlots := s.freeSlots ++ [slot] })
  | none => (false, s)

end CpuKvOffloadStore

inductive OffloadCall where
  | put (requestId : RequestId) (blockId : BlockId) (bytes : List UInt8)
  | get (requestId : RequestId) (blockId : BlockId)
  | remove (requestId : RequestId) (blockId : BlockId)

namespace OffloadCall

variable (s : CpuKvOffloadStore)

def run : OffloadCall → CpuKvOffloadStore
  | put requestId blockId bytes => (s.put requestId blockId bytes).2
  | get _ _ => s
  | remove requestId blockId => (s.remove requestId blockId).2

/-- What a call does to the map that the store stands for: a successful put sets the bytes of its
key, a removal takes them away. -/
def apply (held : RequestId × BlockId → Option (List UInt8)) :
    OffloadCall → RequestId × BlockId → Option (List UInt8)
  | put requestId blockId bytes =>
    match (s.put requestId blockId bytes).1 with
    | .ok _ => Function.update held (requestId, blockId) (some bytes)
    | .error _ => held
  | get _ _ => held
  | remove requestId blockId => Function.update held (requestId, blockId) none

end OffloadCall

namespace CpuKvOffloadStore

/-- The bytes of the last successful put for each key that no removal has followed. -/
def lastPut (held : RequestId × BlockId → Option (List UInt8)) :
    CpuKvOffloadStore → List OffloadCall → RequestId × BlockId → Option (List UInt8)
  | _, [] => held
  | s, call :: calls => lastPut (call.apply s held) (call.run s) calls

/-- The store is a map with room for `capacity` keys: what its calls return in terms of the map. -/
structure Refines (capacity blockSize : ℕ) (s : CpuKvOffloadStore)
    (held : RequestId × BlockId → Option (List UInt8)) (stored : Finset (RequestId × BlockId)) :
    Prop where
  mem_stored : ∀ key, key ∈ stored ↔ held key ≠ none
  get_eq : ∀ r b, s.get r b = held (r, b)
  put_fails : ∀ r b bytes, (∃ e, (s.put r b bytes).1 = .error e) ↔
    bytes.length ≠ blockSize ∨ held (r, b) = none ∧ stored.card = capacity
  put_failed : ∀ r b bytes e, (s.put r b bytes).1 = .error e → (s.put r b bytes).2 = s

/-- The slots in use are distinct and not free, and with the free ones they are all slots. -/
structure Slotted (capacity : ℕ) (s : CpuKvOffloadStore) : Prop where
  used_inj : ∀ key key' slot, s.slots.lookup key = some slot → s.slots.lookup key' = some slot →
    key = key'
  used_not_free : ∀ key slot, s.slots.lookup key = some slot → slot ∉ s.freeSlots
  free_nodup : s.freeSlots.Nodup
  slot_iff : ∀ slot, slot < capacity ↔
    slot ∈ s.freeSlots ∨ ∃ key, s.slots.lookup key = some slot

/-! ## The buffer -/

section Buffer

variable {buffer bytes : List UInt8} {slot slot' capacity size : ℕ}

theorem slot_le (hslot : slot < capacity) (hlen : capacity * size ≤ buffer.length) :
    slot * size + size ≤ buffer.length :=
  calc slot * size + size = (slot + 1) * size := (Nat.succ_mul slot size).symm
    _ ≤ capacity * size := Nat.mul_le_mul_right size hslot
    _ ≤ buffer.length := hlen

theorem length_copyAt (hsize : bytes.length = size) (hle : slot * size + size ≤ buffer.length) :
    (copyAt buffer (slot * size) bytes).length = buffer.length := by
  simp only [copyAt, List.length_append, List.length_take, List.length_drop]
  omega

theorem sliceAt_copyAt_self (hsize : bytes.length = size)
    (hle : slot * size + size ≤ buffer.length) :
    sliceAt (copyAt buffer (slot * size) bytes) (slot * size) size = bytes := by
  have htake : (buffer.take (slot * size)).length = slot * size :=
    List.length_take_of_le (by omega)
  unfold sliceAt copyAt
  rw [List.append_assoc, List.drop_left' htake, ← hsize, List.take_left']
  rfl

theorem sliceAt_copyAt_ne (hsize : bytes.length = size)
    (hle : slot * size + size ≤ buffer.length) (hne : slot' ≠ slot) :
    sliceAt (copyAt buffer (slot * size) bytes) (slot' * size) size =
      sliceAt buffer (slot' * size) size := by
  have htake : (buffer.take (slot * size)).length = slot * size :=
    List.length_take_of_le (by omega)
  refine List.ext_getElem? fun k => ?_
  simp only [sliceAt, List.getElem?_take, List.getElem?_drop]
  split
  · rename_i hk
    unfold copyAt
    by_cases hlt : slot' * size + k < slot * size
    · rw [List.append_assoc, List.getElem?_append_left (htake.symm ▸ hlt),
        List.getElem?_take_of_lt hlt]
    · -- the place is not in the slot either, so it lies behind it
      have hbehind : slot * size + size ≤ slot' * size + k := by
        by_contra hin
        obtain ⟨j, hj⟩ := Nat.exists_eq_add_of_le (Nat.le_of_not_lt hlt)
        exact hne (block_inj hk (by omega) hj).1
      rw [List.getElem?_append_right (by simp; omega), List.getElem?_drop]
      congr 1
      simp only [List.length_append, htake, hsize]
      omega
  · rfl

end Buffer

/-! ## The table of slots -/

section Table

variable {K V : Type} [DecidableEq K] {table : AList fun _ : K => V} {key : K}

theorem mem_keys_of_lookup {v : V} (hv : table.lookup key = some v) : key ∈ table.keys :=
  AList.mem_keys.mp (AList.lookup_isSome.mp (by rw [hv]; rfl))

theorem length_keys_replaced {v : V} (hv : table.lookup key = some v) (w : V) :
    (table.insert key w).keys.length = table.keys.length := by
  have hmem := mem_keys_of_lookup hv
  have hpos := List.length_pos_of_mem hmem
  rw [AList.keys_insert, List.length_cons, List.length_erase_of_mem hmem]
  omega

theorem length_keys_added (hv : table.lookup key = none) (w : V) :
    (table.insert key w).keys.length = table.keys.length + 1 := by
  have hmem : key ∉ table.keys := fun hm => AList.lookup_eq_none.mp hv (AList.mem_keys.mpr hm)
  rw [AList.keys_insert, List.length_cons, List.erase_of_not_mem hmem]

theorem length_keys_erased {v : V} (hv : table.lookup key = some v) :
    (table.erase key).keys.length + 1 = table.keys.length := by
  have hmem := mem_keys_of_lookup hv
  have hpos := List.length_pos_of_mem hmem
  rw [AList.keys_erase, List.length_erase_of_mem hmem]
  omega

end Table

/-! ## The invariant -/

/-- The store holds the bytes of each key in the key's slot. -/
structure Ok (capacity blockSize : ℕ) (s : CpuKvOffloadStore)
    (held : RequestId × BlockId → Option (List UInt8)) : Prop where
  size_eq : s.blockSizeBytes = blockSize
  slotted : Slotted capacity s
  count : s.slots.keys.length + s.freeSlots.length = capacity
  room : capacity * blockSize ≤ s.storage.length
  held_eq : ∀ key, held key =
    (s.slots.lookup key).map fun slot => sliceAt s.storage (slot * blockSize) blockSize

variable {capacity blockSize slot : ℕ} {s : CpuKvOffloadStore} {bytes : List UInt8}
  {held : RequestId × BlockId → Option (List UInt8)} {key : RequestId × BlockId}

theorem Ok.new (h : new capacity blockSize = some s) : Ok capacity blockSize s fun _ => none := by
  unfold CpuKvOffloadStore.new pinnedAlloc at h
  split at h
  · split at h
    · obtain rfl := Option.some.inj h
      refine ⟨rfl, ⟨?_, ?_, ?_, ?_⟩, ?_, ?_, ?_⟩
      · intro key key' slot hslot
        simp at hslot
      · intro key slot hslot
        simp at hslot
      · exact List.nodup_reverse.mpr List.nodup_range
      · simp
      · simp
      · simp
      · simp
    · cases h
  · cases h

theorem Ok.slot_lt (h : Ok capacity blockSize s held) (hslot : s.slots.lookup key = some slot) :
    slot < capacity :=
  (h.slotted.slot_iff slot).mpr (Or.inr ⟨key, hslot⟩)

theorem Ok.held_fill (h : Ok capacity blockSize s held) (hsize : bytes.length = blockSize)
    (hlt : slot < capacity) (hother : ∀ key', s.slots.lookup key' = some slot → key' = key)
    (key' : RequestId × BlockId) :
    Function.update held key (some bytes) key' = ((s.fill key slot bytes).slots.lookup key').map
      fun slot' => sliceAt (s.fill key slot bytes).storage (slot' * blockSize) blockSize := by
  have hle := slot_le hlt h.room
  simp only [fill, h.size_eq]
  by_cases hk : key' = key
  · subst hk
    rw [Function.update_self, AList.lookup_insert, Option.map_some, sliceAt_copyAt_self hsize hle]
  · rw [Function.update_of_ne hk, AList.lookup_insert_ne hk, h.held_eq]
    cases hl : s.slots.lookup key' with
    | none => rfl
    | some slot' =>
      have hne : slot' ≠ slot := fun he => hk (hother key' (he ▸ hl))
      rw [Option.map_some, Option.map_some, sliceAt_copyAt_ne hsize hle hne]

theorem Ok.overwrite (h : Ok capacity blockSize s held) (hsize : bytes.length = blockSize)
    (hslot : s.slots.lookup key = some slot) :
    Ok capacity blockSize (s.fill key slot bytes) (Function.update held key (some bytes)) := by
  have hlt := h.slot_lt hslot
  have hlook : ∀ key', (s.slots.insert key slot).lookup key' = s.slots.lookup key' := by
    intro key'
    by_cases hk : key' = key
    · rw [hk, AList.lookup_insert, hslot]
    · exact AList.lookup_insert_ne hk
  refine ⟨h.size_eq, ⟨?_, ?_, h.slotted.free_nodup, ?_⟩, ?_, ?_, ?_⟩
  · intro key₁ key₂ slot' h₁ h₂
    exact h.slotted.used_inj key₁ key₂ slot' ((hlook key₁).symm.trans h₁)
      ((hlook key₂).symm.trans h₂)
  · intro key' slot' hl
    exact h.slotted.used_not_free key' slot' ((hlook key').symm.trans hl)
  · intro slot'
    simp only [fill, hlook]
    exact h.slotted.slot_iff slot'
  · simp only [fill, length_keys_replaced hslot]
    exact h.count
  · simp only [fill, h.size_eq]
    rw [length_copyAt hsize (slot_le hlt h.room)]
    exact h.room
  · exact h.held_fill hsize hlt fun key' hl => h.slotted.used_inj key' key slot hl hslot

theorem Ok.occupy (h : Ok capacity blockSize s held) (hsize : bytes.length = blockSize)
    (hkey : s.slots.lookup key = none) (hfree : s.freeSlots.getLast? = some slot) :
    Ok capacity blockSize ({ s with freeSlots := s.freeSlots.dropLast }.fill key slot bytes)
      (Function.update held key (some bytes)) := by
  obtain ⟨rest, hrest⟩ : ∃ rest, s.freeSlots = rest ++ [slot] :=
    List.getLast?_eq_some_iff.mp hfree
  have hdrop : s.freeSlots.dropLast = rest := by rw [hrest, List.dropLast_concat]
  have hmem : slot ∈ s.freeSlots := hrest ▸ by simp
  have hlt : slot < capacity := (h.slotted.slot_iff slot).mpr (Or.inl hmem)
  have hunused : ∀ key', s.slots.lookup key' ≠ some slot := fun key' hl =>
    h.slotted.used_not_free key' slot hl hmem
  obtain ⟨hnd, -, hnot⟩ := List.nodup_append.mp (hrest ▸ h.slotted.free_nodup)
  have hlook : ∀ key' slot', (s.slots.insert key slot).lookup key' = some slot' ↔
      key' = key ∧ slot' = slot ∨ key' ≠ key ∧ s.slots.lookup key' = some slot' := by
    intro key' slot'
    by_cases hk : key' = key
    · rw [hk, AList.lookup_insert, Option.some.injEq]
      simp [eq_comm]
    · rw [AList.lookup_insert_ne hk]
      simp [hk]
  refine ⟨h.size_eq, ⟨?_, ?_, ?_, ?_⟩, ?_, ?_, ?_⟩
  · intro key₁ key₂ slot' h₁ h₂
    rcases (hlook key₁ slot').mp h₁ with ⟨rfl, rfl⟩ | ⟨-, hl₁⟩
    · rcases (hlook key₂ slot').mp h₂ with ⟨rfl, -⟩ | ⟨-, hl₂⟩
      · rfl
      · exact absurd hl₂ (hunused key₂)
    · rcases (hlook key₂ slot').mp h₂ with ⟨-, rfl⟩ | ⟨-, hl₂⟩
      · exact absurd hl₁ (hunused key₁)
      · exact h.slotted.used_inj key₁ key₂ slot' hl₁ hl₂
  · intro key' slot' hl
    change slot' ∉ s.freeSlots.dropLast
    rw [hdrop]
    rcases (hlook key' slot').mp hl with ⟨-, rfl⟩ | ⟨-, hl⟩
    · exact fun hm => hnot slot' hm slot' (List.mem_singleton_self slot') rfl
    · exact fun hm => h.slotted.used_not_free key' slot' hl (hrest ▸ List.mem_append_left _ hm)
  · change s.freeSlots.dropLast.Nodup
    rwa [hdrop]
  · intro slot'
    change slot' < capacity ↔ slot' ∈ s.freeSlots.dropLast ∨
      ∃ key', (s.slots.insert key slot).lookup key' = some slot'
    rw [h.slotted.slot_iff, hdrop, hrest, List.mem_append, List.mem_singleton]
    constructor
    · rintro ((hm | rfl) | ⟨key', hl⟩)
      · exact Or.inl hm
      · exact Or.inr ⟨key, (hlook key slot').mpr (Or.inl ⟨rfl, rfl⟩)⟩
      · have hk : key' ≠ key := by
          rintro rfl
          rw [hkey] at hl
          cases hl
        exact Or.inr ⟨key', (hlook key' slot').mpr (Or.inr ⟨hk, hl⟩)⟩
    · rintro (hm | ⟨key', hl⟩)
      · exact Or.inl (Or.inl hm)
      · rcases (hlook key' slot').mp hl with ⟨-, rfl⟩ | ⟨-, hl⟩
        · exact Or.inl (Or.inr rfl)
        · exact Or.inr ⟨key', hl⟩
  · have hcount := h.count
    simp only [fill, hdrop, length_keys_added hkey]
    rw [hrest, List.length_append, List.length_singleton] at hcount
    omega
  · simp only [fill, h.size_eq]
    rw [length_copyAt hsize (slot_le hlt h.room)]
    exact h.room
  · have hpopped : Ok capacity blockSize s held := h
    exact hpopped.held_fill hsize hlt fun key' hl => absurd hl (hunused key')

theorem Ok.remove (h : Ok capacity blockSize s held) (r : RequestId) (b : BlockId) :
    Ok capacity blockSize (s.remove r b).2 (Function.update held (r, b) none) := by
  unfold CpuKvOffloadStore.remove
  cases hslot : s.slots.lookup (r, b) with
  | none =>
    have hnone : held (r, b) = none := by rw [h.held_eq, hslot]; rfl
    rw [← hnone, Function.update_eq_self]
    exact h
  | some slot =>
    have hlook : ∀ key' slot', (s.slots.erase (r, b)).lookup key' = some slot' ↔
        key' ≠ (r, b) ∧ s.slots.lookup key' = some slot' := by
      intro key' slot'
      by_cases hk : key' = (r, b)
      · rw [hk, AList.lookup_erase]
        simp
      · rw [AList.lookup_erase_ne hk]
        simp [hk]
    have hfree := h.slotted.used_not_free _ slot hslot
    refine ⟨h.size_eq, ⟨?_, ?_, ?_, ?_⟩, ?_, h.room, ?_⟩
    · intro key₁ key₂ slot' h₁ h₂
      exact h.slotted.used_inj key₁ key₂ slot' ((hlook key₁ slot').mp h₁).2
        ((hlook key₂ slot').mp h₂).2
    · intro key' slot' hl hm
      obtain ⟨hk, hl⟩ := (hlook key' slot').mp hl
      rcases List.mem_append.mp hm with hm | hm
      · exact h.slotted.used_not_free key' slot' hl hm
      · rw [List.mem_singleton.mp hm] at hl
        exact hk (h.slotted.used_inj key' (r, b) slot hl hslot)
    · refine List.nodup_append.mpr ⟨h.slotted.free_nodup, List.nodup_singleton slot, ?_⟩
      rintro slot' hm slot'' hm' rfl
      exact hfree (List.mem_singleton.mp hm' ▸ hm)
    · intro slot'
      change slot' < capacity ↔ slot' ∈ s.freeSlots ++ [slot] ∨
        ∃ key', (s.slots.erase (r, b)).lookup key' = some slot'
      rw [h.slotted.slot_iff, List.mem_append, List.mem_singleton]
      constructor
      · rintro (hm | ⟨key', hl⟩)
        · exact Or.inl (Or.inl hm)
        · by_cases hk : key' = (r, b)
          · rw [hk, hslot] at hl
            exact Or.inl (Or.inr (Option.some.inj hl).symm)
          · exact Or.inr ⟨key', (hlook key' slot').mpr ⟨hk, hl⟩⟩
      · rintro ((hm | rfl) | ⟨key', hl⟩)
        · exact Or.inl hm
        · exact Or.inr ⟨_, hslot⟩
        · exact Or.inr ⟨key', ((hlook key' slot').mp hl).2⟩
    · have hcount := h.count
      have herased := length_keys_erased hslot
      change (s.slots.erase (r, b)).keys.length + (s.freeSlots ++ [slot]).length = capacity
      rw [List.length_append, List.length_singleton]
      omega
    · intro key'
      by_cases hk : key' = (r, b)
      · rw [hk, Function.update_self, AList.lookup_erase]
        rfl
      · rw [Function.update_of_ne hk, AList.lookup_erase_ne hk]
        exact h.held_eq key'

/-! ## Calls -/

theorem put_of_length (hsize : bytes.length = s.blockSizeBytes) (r : RequestId) (b : BlockId) :
    s.put r b bytes = match s.slots.lookup (r, b) with
      | some slot => (.ok (), s.fill (r, b) slot bytes)
      | none =>
        match s.freeSlots.getLast? with
        | some slot =>
          (.ok (), { s with freeSlots := s.freeSlots.dropLast }.fill (r, b) slot bytes)
        | none => (.error "CPU KV offload store is full", s) :=
  if_neg (not_not.mpr hsize)

theorem put_of_length_ne (hsize : bytes.length ≠ s.blockSizeBytes) (r : RequestId) (b : BlockId) :
    (∃ e, (s.put r b bytes).1 = .error e) ∧ (s.put r b bytes).2 = s := by
  unfold put
  rw [if_pos hsize]
  exact ⟨⟨_, rfl⟩, rfl⟩

theorem Ok.put (h : Ok capacity blockSize s held) (r : RequestId) (b : BlockId)
    (bytes : List UInt8) :
    Ok capacity blockSize (s.put r b bytes).2 ((OffloadCall.put r b bytes).apply s held) := by
  simp only [OffloadCall.apply]
  by_cases hsize : bytes.length = s.blockSizeBytes
  · rw [put_of_length hsize]
    cases hslot : s.slots.lookup (r, b) with
    | some slot => exact h.overwrite (hsize.trans h.size_eq) hslot
    | none =>
      cases hfree : s.freeSlots.getLast? with
      | some slot => exact h.occupy (hsize.trans h.size_eq) hslot hfree
      | none => exact h
  · obtain ⟨⟨e, he⟩, hs⟩ := put_of_length_ne hsize r b
    rw [he, hs]
    exact h

theorem Ok.run (h : Ok capacity blockSize s held) (call : OffloadCall) :
    Ok capacity blockSize (call.run s) (call.apply s held) := by
  cases call with
  | put r b bytes => exact h.put r b bytes
  | get r b => exact h
  | remove r b => exact h.remove r b

theorem Ok.runAll (h : Ok capacity blockSize s held) (calls : List OffloadCall) :
    Ok capacity blockSize (calls.foldl OffloadCall.run s) (lastPut held s calls) := by
  induction calls generalizing s held with
  | nil => exact h
  | cons call calls ih => exact ih (h.run call)

theorem Ok.full_iff (h : Ok capacity blockSize s held) :
    s.freeSlots.getLast? = none ↔ s.slots.keys.toFinset.card = capacity := by
  rw [List.getLast?_eq_none_iff, ← List.length_eq_zero_iff,
    List.toFinset_card_of_nodup (AList.keys_nodup _)]
  have := h.count
  omega

theorem Ok.refines (h : Ok capacity blockSize s held) :
    Refines capacity blockSize s held s.slots.keys.toFinset where
  mem_stored key := by
    rw [List.mem_toFinset, ← AList.mem_keys, ← AList.lookup_isSome, h.held_eq,
      Option.isSome_iff_ne_none, ne_eq, ne_eq, Option.map_eq_none_iff]
  get_eq r b := by
    rw [get, h.held_eq, h.size_eq]
    cases s.slots.lookup (r, b) <;> rfl
  put_fails r b bytes := by
    rw [h.held_eq, Option.map_eq_none_iff, ← h.full_iff, ← h.size_eq]
    by_cases hsize : bytes.length = s.blockSizeBytes
    · rw [put_of_length hsize]
      cases s.slots.lookup (r, b) with
      | some slot => simp [hsize]
      | none => cases s.freeSlots.getLast? <;> simp [hsize]
    · exact iff_of_true (put_of_length_ne hsize r b).1 (Or.inl hsize)
  put_failed r b bytes e he := by
    by_cases hsize : bytes.length = s.blockSizeBytes
    · rw [put_of_length hsize] at he ⊢
      cases hslot : s.slots.lookup (r, b) with
      | some slot =>
        rw [hslot] at he
        cases he
      | none =>
        rw [hslot] at he
        cases hfree : s.freeSlots.getLast? with
        | some slot =>
          rw [hfree] at he
          cases he
        | none => rfl
    · exact (put_of_length_ne hsize r b).2

/-- After any calls the store answers as the map of the last puts, which has room for as many keys
as there are slots. -/
theorem run_refines (capacity blockSize : ℕ) (s : CpuKvOffloadStore)
    (hnew : new capacity blockSize = some s) (calls : List OffloadCall) :
    (∃ stored, Refines capacity blockSize (calls.foldl OffloadCall.run s)
      (lastPut (fun _ => none) s calls) stored) ∧
    Slotted capacity (calls.foldl OffloadCall.run s) :=
  have h := (Ok.new hnew).runAll calls
  ⟨⟨_, h.refines⟩, h.slotted⟩

/-- Two slots: a third key finds the store full, and takes the slot of a removed one. -/
def smallStore : CpuKvOffloadStore where
  blockSizeBytes := 2
  capacityBlocks := 2
  freeSlots := [1, 0]
  slots := ∅
  storage := [0, 0, 0, 0]

def smallCalls : List OffloadCall :=
  [.put 1 7 [1, 2], .put 1 8 [3, 4], .put 2 7 [5, 6], .remove 1 7, .put 2 7 [7, 8]]

theorem run_refines_small :
    (∃ stored, Refines 2 2 (smallCalls.foldl OffloadCall.run smallStore)
      (lastPut (fun _ => none) smallStore smallCalls) stored) ∧
    Slotted 2 (smallCalls.foldl OffloadCall.run smallStore) :=
  run_refines 2 2 smallStore rfl smallCalls

example : (smallCalls.foldl OffloadCall.run smallStore).get 2 7 = some [7, 8] := by decide

end CpuKvOffloadStore

end Rllm
