/-
  RLP values of type `interface{}`: byte strings and lists of such values.

  The writers of `[]byte` and `[]interface{}` put heads and data into a buffer, which
  `EncodeToBytes` merges to the encoding.
-/
import GoEthereum.Rlp.Encode

namespace GoEthereum.Rlp

/-- The values of `interface{}`: `[]byte` and `[]interface{}`. -/
inductive Item where
  | str (b : Bytes)
  | list (xs : List Item)

mutual
/-- `writeInterface`: the writer of the value's own type. -/
def writeInterface : Item → Encbuf → Encbuf
  | .str b, w => w.encodeString b
  | .list xs, w => (writeElems xs w.list.2).listEnd w.list.1

/-- The loop of `makeSliceWriter`. -/
def writeElems : List Item → Encbuf → Encbuf
  | [], w => w
  | x :: xs, w => writeElems xs (writeInterface x w)
end

/-- `EncodeToBytes`; there is no slice of more than `maxInt` bytes. -/
def encodeToBytes (x : Item) : Option Bytes :=
  let w := writeInterface x {}
  if w.size ≤ maxInt then some w.toBytes else none

mutual
/-- The encoding of a value, written from the inside out. -/
def enc : Item → Bytes
  | .str b => encString b
  | .list xs => encList (encs xs)

/-- The encodings of the elements of a list. -/
def encs : List Item → Bytes
  | [] => []
  | x :: xs => enc x ++ encs xs
end

theorem encs_eq_flatten (xs : List Item) : encs xs = (xs.map enc).flatten := by
  induction xs with
  | nil => simp [encs]
  | cons x xs ih => simp [encs, ih]

theorem encs_append (xs ys : List Item) : encs (xs ++ ys) = encs xs ++ encs ys := by
  rw [encs_eq_flatten, encs_eq_flatten, encs_eq_flatten, List.map_append, List.flatten_append]

theorem encs_singleton (x : Item) : encs [x] = enc x := by
  rw [encs, encs, List.append_nil]

theorem length_encs_le {xs : List Item} {n : ℕ} (h : ∀ x ∈ xs, (enc x).length ≤ n) :
    (encs xs).length ≤ xs.length * n := by
  induction xs with
  | nil => simp [encs]
  | cons x xs ih =>
    have h₁ := h x List.mem_cons_self
    have h₂ := ih fun y hy => h y (List.mem_cons_of_mem _ hy)
    rw [encs, List.length_append, List.length_cons, Nat.add_mul, Nat.one_mul]
    omega

theorem enc_ne_nil (x : Item) : enc x ≠ [] := by
  cases x with
  | str b => rw [enc]; exact encString_ne_nil b
  | list xs => rw [enc]; exact encList_ne_nil _

mutual
/-- The buffer a value leaves behind. -/
def buf : Item → Encbuf
  | .str b => ⟨encString b, [], 0⟩
  | .list xs => (bufs xs).wrap

/-- The buffer the elements of a list leave behind. -/
def bufs : List Item → Encbuf
  | [] => {}
  | x :: xs => (buf x).append (bufs xs)
end

mutual
theorem appends_writeInterface : ∀ x : Item, Appends (writeInterface x) (buf x)
  | .str b => by
    intro w
    rw [writeInterface, buf]
    exact appends_encodeString b w
  | .list xs => by
    intro w
    rw [writeInterface, buf]
    exact (appends_writeElems xs).list w

theorem appends_writeElems : ∀ xs : List Item, Appends (writeElems xs) (bufs xs)
  | [] => by intro w; rw [writeElems, bufs, Encbuf.append_empty]
  | x :: xs => by
    intro w
    rw [writeElems, bufs]
    exact (appends_writeInterface x).comp (appends_writeElems xs) w
end

mutual
theorem renders_buf : ∀ x : Item, (buf x).size < 2 ^ 64 ∨ (enc x).length < 2 ^ 64 →
    (buf x).Renders (enc x)
  | .str b, _ => by rw [buf, enc]; exact Encbuf.renders_write _
  | .list xs, h => by
    rw [buf, enc] at h ⊢
    have hin : (bufs xs).size < 2 ^ 64 ∨ (encs xs).length < 2 ^ 64 := by
      refine h.imp (fun h => ?_) fun h => ?_
      · simp only [Encbuf.wrap, Encbuf.size] at h ⊢; omega
      · rw [encList, List.length_append] at h; omega
    have hr := renders_bufs xs hin
    exact hr.list (hin.elim (fun h => hr.size_eq ▸ h) id)

theorem renders_bufs : ∀ xs : List Item, (bufs xs).size < 2 ^ 64 ∨ (encs xs).length < 2 ^ 64 →
    (bufs xs).Renders (encs xs)
  | [], _ => by rw [bufs, encs]; exact Encbuf.renders_write []
  | x :: xs, h => by
    rw [bufs, encs] at h ⊢
    rw [Encbuf.size_append, List.length_append] at h
    exact (renders_buf x (h.imp (by omega) (by omega))).append
      (renders_bufs xs (h.imp (by omega) (by omega)))
end

theorem writeInterface_empty (x : Item) : writeInterface x {} = buf x := by
  rw [appends_writeInterface x {}, Encbuf.empty_append]

theorem encodeToBytes_eq {x : Item} (h : (writeInterface x {}).size ≤ maxInt) :
    encodeToBytes x = some (enc x) ∧ (enc x).length ≤ maxInt := by
  have hr := renders_buf x (.inl (by rw [← writeInterface_empty]; simp only [maxInt] at h; omega))
  rw [← writeInterface_empty] at hr
  exact ⟨by simp only [encodeToBytes, if_pos h, hr.toBytes_eq], hr.size_eq ▸ h⟩

theorem encodeToBytes_of_length {x : Item} (h : (enc x).length ≤ maxInt) :
    encodeToBytes x = some (enc x) := by
  have hr := renders_buf x (.inr (by simp only [maxInt] at h; omega))
  rw [← writeInterface_empty] at hr
  exact (encodeToBytes_eq (hr.size_eq ▸ h)).1

end GoEthereum.Rlp
