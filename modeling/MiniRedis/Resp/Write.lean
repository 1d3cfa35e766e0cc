import MiniRedis.Resp.Parse

/-!
# The RESP writers

Each `resp_write_*` function appends its encoding to a connection's write buffer through
`client_write_append`; here each returns the bytes it appends. Strings passed to the simple
string and error writers are C strings, so only their bytes before a NUL are written. An
array is written as `resp_write_array_header(k)` followed by the `k` element encodings, which
`respWriteValue` composes for a whole value.
-/

namespace MiniRedis

/-- `resp_write_simple_string`: `+`, the C string, CRLF. -/
def respWriteSimpleString (str : Bytes) : Bytes := [43] ++ cString str ++ crlf

/-- `resp_write_error`: `-`, the C string, CRLF. -/
def respWriteError (msg : Bytes) : Bytes := [45] ++ cString msg ++ crlf

/-- `resp_write_integer`: `:%lld\r\n`. -/
def respWriteInteger (val : Int) : Bytes := [58] ++ intDecimal val ++ crlf

/-- `resp_write_bulk_string`: `$%zu\r\n`, the payload, CRLF. -/
def respWriteBulkString (data : Bytes) : Bytes :=
  [36] ++ natDecimal data.length ++ crlf ++ data ++ crlf

/-- `resp_write_null_bulk_string`: `$-1\r\n`. -/
def respWriteNullBulkString : Bytes := [36, 45, 49, 13, 10]

/-- `resp_write_array_header`: `*%d\r\n`. -/
def respWriteArrayHeader (count : Int) : Bytes := [42] ++ intDecimal count ++ crlf

mutual
/-- The bytes written for a value: an array as its header and then each element. -/
def respWriteValue : RespValue → Bytes
  | .simpleString str => respWriteSimpleString str
  | .error msg => respWriteError msg
  | .integer val => respWriteInteger val
  | .bulkString data => respWriteBulkString data
  | .nullBulkString => respWriteNullBulkString
  | .array elements => respWriteArrayHeader elements.length ++ respWriteValues elements

/-- The bytes written for the elements of an array, in order. -/
def respWriteValues : List RespValue → Bytes
  | [] => []
  | v :: vs => respWriteValue v ++ respWriteValues vs
end

end MiniRedis
