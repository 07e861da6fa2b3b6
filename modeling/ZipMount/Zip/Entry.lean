import ZipMount.Contents
import ZipMount.Error
import ZipMount.Options.Basic
import ZipMount.Time.Dos

namespace ZipMount.Zip

/-- The extended timestamp of an entry: its flags, and the times they announce, in seconds since
1970 as unsigned words. -/
structure Stamp where
  flags : UInt8
  modified : Option UInt32
  accessed : Option UInt32
  created : Option UInt32
deriving DecidableEq, Repr

namespace Stamp

def full (modified accessed created : UInt32) : Stamp :=
  ⟨7, some modified, some accessed, some created⟩

/-- The times of the stamp in the order in which they are written. -/
def times (s : Stamp) : List UInt32 :=
  s.modified.toList ++ s.accessed.toList ++ s.created.toList

end Stamp

/-- What is written for an entry. The name of a directory ends in a slash. -/
structure Draft where
  name : String
  isDirectory : Bool
  method : Compression
  dos : DosTime
  stamp : Option Stamp
  data : ByteArray
deriving DecidableEq

/-- What is read of an entry. Its contents may prove damaged. -/
structure Entry where
  name : String
  dos : DosTime
  stamp : Option Stamp
  contents : Except IoFault ByteArray

/-- An entry is a directory if its name says so, by a slash or a backslash at the end. -/
def Entry.isDirectory (e : Entry) : Bool :=
  match e.name.toList.getLast? with
  | some c => c = '/' || c = '\\'
  | none => false

/-- The entry that reads back as what was written. -/
def Draft.toEntry (d : Draft) : Entry := ⟨d.name, d.dos, d.stamp, .ok d.data⟩

end ZipMount.Zip
