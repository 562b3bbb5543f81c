import Defra.Bytes

/-! Paths into a JSON value and their keys (`encode_path` and `decode_path` in `json_crdt.rs`). -/

namespace Defra.Json

abbrev Path := List String

/-- A segment's bytes, its 0 bytes written `0 255`. -/
def escape (bytes : Bytes) : Bytes := bytes.flatMap fun byte => if byte = 0 then [0, 255] else [byte]

/-- The key of a path: each segment escaped, then `0 1`. -/
def encodePath (path : Path) : Bytes := path.flatMap fun segment => escape (utf8 segment) ++ [0, 1]

def decodePathLoop : Bytes → Path → Bytes → Option Path
  | [], path, segment => if segment.isEmpty then some path else none
  | [byte], path, segment => if byte ≠ 0 then decodePathLoop [] path (segment ++ [byte]) else none
  | byte :: mark :: rest, path, segment =>
    if byte ≠ 0 then decodePathLoop (mark :: rest) path (segment ++ [byte])
    else if mark = 255 then decodePathLoop rest path (segment ++ [0])
    else if mark = 1 then (fromUtf8 segment).bind fun name => decodePathLoop rest (path ++ [name]) []
    else none

/-- The path whose key is `key`, if it is one. -/
def decodePath (key : Bytes) : Option Path := decodePathLoop key [] []

end Defra.Json
