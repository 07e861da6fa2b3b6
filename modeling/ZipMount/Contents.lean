namespace ZipMount

/-- Contents are the same if their bytes are. -/
instance instDecidableEqContents : DecidableEq ByteArray := fun a b =>
  decidable_of_iff (a.data.toList = b.data.toList)
    ⟨fun h => ByteArray.ext (Array.toList_inj.1 h), fun h => h ▸ rfl⟩

def contents (bs : List UInt8) : ByteArray := ⟨bs.toArray⟩

end ZipMount
