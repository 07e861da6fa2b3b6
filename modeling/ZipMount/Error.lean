import ZipMount.Access
import ZipMount.Text.Utf8

namespace ZipMount

/-- Refusals of the host, by number. -/
inductive Errno where
  | noEntry
  | exists
  | notDirectory
  | isDirectory
  | invalid
  | nameTooLong
  | notEmpty
  | tooManyLinks
  | denied
  | busy
deriving DecidableEq, Repr

def Errno.text : Errno → String
  | .noEntry => "No such file or directory (os error 2)"
  | .exists => "File exists (os error 17)"
  | .notDirectory => "Not a directory (os error 20)"
  | .isDirectory => "Is a directory (os error 21)"
  | .invalid => "Invalid argument (os error 22)"
  | .nameTooLong => "File name too long (os error 36)"
  | .notEmpty => "Directory not empty (os error 39)"
  | .tooManyLinks => "Too many levels of symbolic links (os error 40)"
  | .denied => "Permission denied (os error 13)"
  | .busy => "Device or resource busy (os error 16)"

/-- Failed input or output. -/
inductive IoFault where
  /-- A refusal of the host. -/
  | host (errno : Errno)
  /-- A name with a zero byte in it, which the host cannot be asked about. -/
  | zeroInName
  /-- A failure on one path of a walk. -/
  | walk (path : String) (cause : IoFault)
  /-- A link that leads back to a directory the walk is in. -/
  | linkLoop (link ancestor : String)
  /-- Contents that do not have the checksum the directory gives. -/
  | checksum
  /-- Compressed data that is none. -/
  | corruptDeflate
  /-- Compressed data that breaks off. -/
  | incompleteDeflate
  /-- Something is missing, without a number from the host. -/
  | missing
  /-- Something is in the way, without a number from the host. -/
  | present
  /-- Something is forbidden, without a number from the host. -/
  | forbidden
  /-- Any other failure, by its text. -/
  | other (text : String)
deriving DecidableEq, Repr

def IoFault.text : IoFault → String
  | .host e => e.text
  | .zeroInName => "file name contained an unexpected NUL byte"
  | .walk path cause => "IO error for operation on " ++ path ++ ": " ++ cause.text
  | .linkLoop link ancestor =>
    "File system loop found: " ++ link ++ " points to an ancestor " ++ ancestor
  | .checksum => "Invalid checksum"
  | .corruptDeflate => "corrupt deflate stream"
  | .incompleteDeflate => "incomplete deflate stream"
  | .missing => "entity not found"
  | .present => "entity already exists"
  | .forbidden => "permission denied"
  | .other text => text

/-- The host's refusal behind a failure, if there is one. -/
def IoFault.errno? : IoFault → Option Errno
  | .host e => some e
  | .walk _ cause => cause.errno?
  | .missing => some .noEntry
  | .present => some .exists
  | .forbidden => some .denied
  | _ => none

/-- Files that are no archive this library reads. -/
inductive ZipFault where
  | truncated
  | commentTooLong
  | directoryOffset
  | noDirectory
  | noEndRecord
  | passwordRequired
  | localHeader
  | compressionMethod
  | noSuchEntry
  /-- A name too long for its length field. -/
  | nameTooLong
deriving DecidableEq, Repr

def ZipFault.text : ZipFault → String
  | .truncated => "i/o error"
  | .commentTooLong => "invalid Zip archive: EOCD comment exceeds file boundary"
  | .directoryOffset => "invalid Zip archive: Invalid CDFH offset in EOCD"
  | .noDirectory => "invalid Zip archive: No CDFH found"
  | .noEndRecord => "invalid Zip archive: Could not find EOCD"
  | .passwordRequired => "unsupported Zip archive: Password required to decrypt file"
  | .localHeader => "invalid Zip archive: Invalid local file header"
  | .compressionMethod => "unsupported Zip archive: Compression method not supported"
  | .noSuchEntry => "specified file not found in archive"
  | .nameTooLong => "invalid Zip archive: File name too long"

/-- Why an operation failed. -/
inductive Error where
  | alreadyExists (subject : String)
  | notFound (subject : String)
  | permissionDenied (path : String) (modes : List AccessMode)
  | invalidOption (key value : String)
  | providerMismatch (expected path : String)
  | readOnly (subject : String)
  | closed (subject : String)
  | alreadyMounted (subject : String)
  | notADirectory (subject : String)
  | isADirectory (subject : String)
  | directoryNotEmpty (subject : String)
  | unsupported (operation scheme : String)
  | invalidLocator (subject : String)
  | zip (fault : ZipFault)
  | io (fault : IoFault)
  | config (text : String)
  | context (note : String) (cause : Error)
deriving DecidableEq, Repr

namespace Error

/-- The wording of an error, its contexts before its cause. -/
def message : Error → String
  | .alreadyExists s => "File already exists: " ++ s
  | .notFound s => "No such file: " ++ s
  | .permissionDenied path modes => "Access denied (" ++ AccessMode.names modes ++ "): " ++ path
  | .invalidOption key value => "Invalid value '" ++ value ++ "' for option '" ++ key ++ "'"
  | .providerMismatch expected path =>
    path ++ " is not a path of the " ++ expected ++ " provider"
  | .readOnly s => "Read-only file system: " ++ s
  | .closed s => "File system is closed: " ++ s
  | .alreadyMounted s => "File system already mounted: " ++ s
  | .notADirectory s => "Not a directory: " ++ s
  | .isADirectory s => "Is a directory: " ++ s
  | .directoryNotEmpty s => "Directory not empty: " ++ s
  | .unsupported op scheme =>
    "Operation '" ++ op ++ "' is not supported by the " ++ scheme ++ " provider"
  | .invalidLocator s => "Invalid archive locator: " ++ s
  | .zip f => "Zip error: " ++ f.text
  | .io f => "IO error: " ++ f.text
  | .config text => "Config error: " ++ text
  | .context note cause => note ++ ": " ++ cause.message

/-- The cause beneath all contexts. -/
def rootCause : Error → Error
  | .context _ cause => cause.rootCause
  | e => e

def isAlreadyExists (e : Error) : Bool :=
  match e.rootCause with
  | .alreadyExists _ => true
  | .io f => f.errno? == some .exists
  | _ => false

def isNotFound (e : Error) : Bool :=
  match e.rootCause with
  | .notFound _ => true
  | .io f => f.errno? == some .noEntry
  | _ => false

def isPermissionDenied (e : Error) : Bool :=
  match e.rootCause with
  | .permissionDenied .. => true
  | .io f => f.errno? == some .denied
  | _ => false

@[simp] theorem rootCause_context (note : String) (e : Error) :
    (context note e).rootCause = e.rootCause := rfl

theorem rootCause_ne_context (e : Error) (note : String) (cause : Error) :
    e.rootCause ≠ context note cause := by
  induction e with
  | context n c ih => exact ih
  | _ => simp [rootCause]

/-- A failed step under a note that says what was attempted. -/
def noted {α : Type} (note : String) (r : Except Error α) : Except Error α :=
  r.mapError (context note)

/-- The error for a host's refusal on a path: the three common causes by themselves, anything else
under the path's name. -/
def ofHost (path : String) (f : IoFault) : Error :=
  match f.errno? with
  | some .noEntry => .notFound path
  | some .exists => .alreadyExists path
  | some .denied => .permissionDenied path []
  | _ => .context path (.io f)

end Error

end ZipMount
