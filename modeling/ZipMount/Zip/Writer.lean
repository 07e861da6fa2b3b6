import ZipMount.Text.Utf8
import ZipMount.Zip.Crc32
import ZipMount.Zip.Deflate
import ZipMount.Zip.Entry
import ZipMount.Zip.Layout

namespace ZipMount.Zip

def extraField : Option Stamp → List UInt8
  | none => []
  | some s =>
    let payload := s.flags :: s.times.flatMap fun t => long t.toNat
    word stampId ++ word payload.length ++ payload

/-- A draft with what its headers say of the contents. -/
structure Packed where
  name : List UInt8
  flags : Nat
  version : Nat
  method : Nat
  dos : DosTime
  crc : UInt32
  size : Nat
  mode : Nat
  extra : List UInt8
  body : ByteArray

/-- Kind and permissions of an entry: directories may be searched by all, files read by all, and
both changed by their owner. -/
def Draft.mode (d : Draft) : Nat := if d.isDirectory then 0o040755 else 0o100644

/-- Packs the contents of a draft. Directories are never deflated. -/
def pack (d : Draft) : Packed :=
  let deflated := !d.isDirectory && d.method == .deflated
  { name := Text.bytes d.name
    flags := if d.name.toList.all fun c => c.toNat < 128 then 0 else utf8Flag
    version := if d.isDirectory || deflated then 20 else 10
    method := if deflated then 8 else 0
    dos := d.dos
    crc := crc32 d.data
    size := d.data.size
    mode := d.mode
    extra := extraField d.stamp
    body := if deflated then deflate d.data else d.data }

namespace Packed

/-- The fields that a local and a directory header share, from the version on. -/
def shared (p : Packed) : List UInt8 :=
  word p.version ++ word p.flags ++ word p.method ++ word p.dos.time.toNat ++ word p.dos.date.toNat
    ++ long p.crc.toNat ++ long p.body.size ++ long p.size
    ++ word p.name.length ++ word p.extra.length

def localHeader (p : Packed) : List UInt8 :=
  long localMark ++ p.shared ++ p.name ++ p.extra

/-- The header in the directory, for a local header at a place. -/
def directoryHeader (p : Packed) (offset : Nat) : List UInt8 :=
  long directoryMark ++ word (768 + p.version) ++ p.shared ++ word 0 ++ word 0 ++ word 0
    ++ long (p.mode * 65536) ++ long offset ++ p.name ++ p.extra

end Packed

/-- The local headers with the contents, and the directory headers for them. -/
def writeEntries (ps : List Packed) : ByteArray × ByteArray :=
  ps.foldl
    (fun (out, directory) p =>
      (out ++ contents p.localHeader ++ p.body, directory ++ contents (p.directoryHeader out.size)))
    (ByteArray.empty, ByteArray.empty)

def endRecord (count size offset : Nat) : List UInt8 :=
  long endMark ++ word 0 ++ word 0 ++ word count ++ word count ++ long size ++ long offset ++ word 0

/-- The archive file of some drafts. A name has to fit its length field. A count, size or place that
does not fit its field is cut to it: the records with wider fields are not written, so that more than
65535 drafts, or four gigabytes, do not read back. -/
def write (drafts : List Draft) : Except ZipFault ByteArray :=
  if drafts.any fun d => 65535 < (Text.bytes d.name).length then .error .nameTooLong
  else
    let (out, directory) := writeEntries (drafts.map pack)
    .ok (out ++ directory ++ contents (endRecord drafts.length directory.size out.size))

end ZipMount.Zip
