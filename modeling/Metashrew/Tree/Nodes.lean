import Metashrew.Lib.Slices
import Metashrew.Tree.Basic

namespace Metashrew

open Bytes Slices

def serializeNode : SMTNode Hash32 → Bytes
  | .internal leftChild rightChild => [0] ++ leftChild.toList ++ rightChild.toList
  | .leaf key valueIndex => [1] ++ u32le key.length ++ key ++ valueIndex.toList

/-- `&data[start..stop]` -/
def indexRange (data : Bytes) (start stop : Nat) : Except Fault Bytes :=
  match slice data start stop with
  | some s => .ok s
  | none => .error (.panic "range out of bounds")

/-- `copy_from_slice` into an array of 32 bytes. -/
def copyFromSlice (source : Bytes) : Except Fault Hash32 :=
  if h : source.length = 32 then .ok ⟨source.toArray,h⟩
  else .error (.panic "source slice length does not match destination slice length")

/-- The indices are of 64 bits, so that the length check adds up what it says. -/
def deserializeNode (data : Bytes) : Except Fault (SMTNode Hash32) :=
  match data.head? with
  | none => .error (.message "Empty node data")
  | some tag =>
    if tag = 0 then
      if data.length ≠ 65 then .error (.message "Invalid internal node data length")
      else do
        let leftChild ← copyFromSlice (← indexRange data 1 33)
        let rightChild ← copyFromSlice (← indexRange data 33 65)
        return .internal leftChild rightChild
    else if tag = 1 then
      if data.length < 5 then .error (.message "Invalid leaf node data length")
      else
        match readU32le (data.drop 1) with
        | none => .error (.panic "source slice length does not match destination slice length")
        | some keyLen =>
          if data.length ≠ 5+keyLen+32 then .error (.message "Invalid leaf node data length")
          else do
            let key ← indexRange data 5 (5+keyLen)
            let valueIndex ← copyFromSlice (← indexRange data (5+keyLen) (5+keyLen+32))
            return .leaf key valueIndex
    else .error (.message "Invalid node type")

/-- The key of a leaf has a length that the format can hold. -/
def SMTNode.Short {δ : Type} : SMTNode δ → Prop
  | .internal _ _ => True
  | .leaf key _ => key.length < 2^32

theorem indexRange_mid {data : Bytes} (pre mid post : Bytes) {start stop : Nat}
    (h : data = pre ++ mid ++ post) (h1 : start = pre.length) (h2 : stop = start+mid.length) :
    indexRange data start stop = .ok mid := by
  rw [indexRange, slice_eq_some_iff.mpr ⟨pre,post,h,h1,h2⟩]

theorem copyFromSlice_toList (hash : Hash32) : copyFromSlice hash.toList = .ok hash := by
  have hl : hash.toList.length = 32 := by simp
  rw [copyFromSlice, dif_pos hl]
  apply congrArg Except.ok
  apply Vector.toArray_inj.mp
  exact Array.toArray_toList

theorem exists_hash {bs : Bytes} (h : bs.length = 32) : ∃ hash : Hash32, bs = hash.toList :=
  ⟨⟨bs.toArray,h⟩,rfl⟩

theorem deserializeNode_internal (leftChild rightChild : Hash32) :
    deserializeNode (serializeNode (.internal leftChild rightChild)) =
      .ok (.internal leftChild rightChild) := by
  have hl : (serializeNode (.internal leftChild rightChild)).length = 65 := by simp [serializeNode]
  have h1 : indexRange (serializeNode (.internal leftChild rightChild)) 1 33 = .ok leftChild.toList :=
    indexRange_mid [0] _ rightChild.toList rfl rfl (by simp)
  have h2 : indexRange (serializeNode (.internal leftChild rightChild)) 33 65 = .ok rightChild.toList :=
    indexRange_mid _ _ [] (List.append_nil _).symm (by simp) (by simp)
  have hhead : (serializeNode (.internal leftChild rightChild)).head? = some 0 := rfl
  rw [deserializeNode, hhead]
  dsimp only
  rw [if_pos rfl, if_neg (not_not.mpr hl), h1, h2]
  show (copyFromSlice leftChild.toList >>= fun l => copyFromSlice rightChild.toList >>= fun r =>
    pure (SMTNode.internal l r)) = _
  rw [copyFromSlice_toList, copyFromSlice_toList]
  rfl

theorem deserializeNode_leaf {key : Bytes} (h : key.length < 2^32) (valueIndex : Hash32) :
    deserializeNode (serializeNode (.leaf key valueIndex)) = .ok (.leaf key valueIndex) := by
  have hl : (serializeNode (.leaf key valueIndex)).length = 5+key.length+32 := by
    simp [serializeNode]
    omega
  have h1 : indexRange (serializeNode (.leaf key valueIndex)) 5 (5+key.length) = .ok key :=
    indexRange_mid ([1] ++ u32le key.length) _ _ rfl rfl rfl
  have h2 : indexRange (serializeNode (.leaf key valueIndex)) (5+key.length) (5+key.length+32) =
      .ok valueIndex.toList :=
    indexRange_mid _ _ [] (List.append_nil _).symm (by simp; omega) (by simp)
  have hhead : (serializeNode (.leaf key valueIndex)).head? = some 1 := rfl
  have hread : readU32le ((serializeNode (.leaf key valueIndex)).drop 1) = some key.length := by
    show readU32le (u32le key.length ++ key ++ valueIndex.toList) = _
    rw [List.append_assoc, readU32le_append h]
  rw [deserializeNode, hhead]
  dsimp only
  rw [if_neg (by decide), if_pos rfl, if_neg (by omega), hread]
  dsimp only
  rw [if_neg (not_not.mpr hl), h1, h2]
  show (copyFromSlice valueIndex.toList >>= fun hash => pure (SMTNode.leaf key hash)) = _
  rw [copyFromSlice_toList]
  rfl

theorem deserializeNode_serializeNode {node : SMTNode Hash32} (h : node.Short) :
    deserializeNode (serializeNode node) = .ok node := by
  cases node with
  | internal leftChild rightChild => exact deserializeNode_internal leftChild rightChild
  | leaf key valueIndex => exact deserializeNode_leaf h valueIndex

/-- Bytes are refused with a message, or are those of a node. -/
theorem deserializeNode_cases (data : Bytes) :
    (∃ text, deserializeNode data = .error (.message text)) ∨
      ∃ node : SMTNode Hash32, node.Short ∧ data = serializeNode node := by
  cases data with
  | nil => exact .inl ⟨_,rfl⟩
  | cons tag data =>
    rw [deserializeNode, List.head?_cons]
    dsimp only
    by_cases h0 : tag = 0
    · rw [if_pos h0]
      by_cases hl : (tag::data).length ≠ 65
      · exact .inl ⟨_,if_pos hl⟩
      · have hlen : data.length = 64 := by simpa using hl
        obtain ⟨leftChild,hleft⟩ := exists_hash (show (data.take 32).length = 32 by simp [hlen])
        obtain ⟨rightChild,hright⟩ := exists_hash (show (data.drop 32).length = 32 by simp [hlen])
        refine .inr ⟨.internal leftChild rightChild,trivial,?_⟩
        rw [serializeNode, ← hleft, ← hright, h0, List.append_assoc, List.take_append_drop]
        rfl
    · rw [if_neg h0]
      by_cases h1 : tag = 1
      · rw [if_pos h1]
        by_cases h5 : (tag::data).length < 5
        · exact .inl ⟨_,if_pos h5⟩
        · obtain ⟨keyLen,hlt,hlength⟩ := exists_u32le (show (data.take 4).length = 4 by
            rw [List.length_take]
            simp only [List.length_cons] at h5
            omega)
          have hdata : data = u32le keyLen ++ data.drop 4 := by
            rw [← hlength, List.take_append_drop]
          have hread : readU32le ((tag::data).drop 1) = some keyLen := by
            show readU32le data = _
            rw [hdata, readU32le_append hlt]
          rw [if_neg h5, hread]
          dsimp only
          by_cases hl : (tag::data).length ≠ 5+keyLen+32
          · exact .inl ⟨_,if_pos hl⟩
          · have hlen : (data.drop 4).length = keyLen+32 := by
              simp only [List.length_cons, not_not] at hl
              rw [List.length_drop]
              omega
            obtain ⟨valueIndex,hvalue⟩ := exists_hash (show ((data.drop 4).drop keyLen).length = 32 by
              rw [List.length_drop]
              omega)
            have hkey : ((data.drop 4).take keyLen).length = keyLen := by
              rw [List.length_take]
              omega
            refine .inr ⟨.leaf ((data.drop 4).take keyLen) valueIndex,?_,?_⟩
            · show ((data.drop 4).take keyLen).length < 2^32
              omega
            · rw [serializeNode, hkey, ← hvalue, h1, List.append_assoc, List.take_append_drop,
                List.append_assoc, ← hdata]
              rfl
      · exact .inl ⟨_,if_neg h1⟩

/-- Serialised nodes are exactly the bytes that are accepted, and no others make the reader panic. -/
theorem node_format_bijective :
    (∀ node : SMTNode Hash32, node.Short → deserializeNode (serializeNode node) = .ok node) ∧
      (∀ data node, deserializeNode data = .ok node → serializeNode node = data) ∧
      ∀ data text, deserializeNode data ≠ .error (.panic text) := by
  refine ⟨fun node => deserializeNode_serializeNode,?_,?_⟩
  · intro data node h
    rcases deserializeNode_cases data with ⟨text,he⟩ | ⟨node',hshort,rfl⟩
    · rw [he] at h
      cases h
    · rw [deserializeNode_serializeNode hshort] at h
      cases h
      rfl
  · intro data text h
    rcases deserializeNode_cases data with ⟨text',he⟩ | ⟨node,hshort,rfl⟩
    · rw [he] at h
      cases h
    · rw [deserializeNode_serializeNode hshort] at h
      cases h

theorem node_format_leaf : deserializeNode
    (serializeNode (.leaf [1,2,3] (Vector.replicate 32 7))) = .ok (.leaf [1,2,3] (Vector.replicate 32 7)) :=
  node_format_bijective.1 _ (show [1,2,3].length < 2^32 by decide)

end Metashrew
