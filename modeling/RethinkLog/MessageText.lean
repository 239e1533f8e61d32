import RethinkLog.RequestText

/-!
# The text of messages

What a client or a server puts on the wire: a first line, header fields, an
empty line and a body, or a chunk with its size in front. A message is given a
content length unless its header string seems to hold one already, or a
transfer encoding. Sizes are written as an `int` in decimal, and as they are
in hexadecimal.
-/

set_option autoImplicit false

namespace RethinkLog.Via

/-- `header_field::id` -/
inductive HeaderId where
  | cacheControl
  | connection
  | date
  | pragma
  | trailer
  | transferEncoding
  | upgrade
  | via
  | warning
  | accept
  | acceptCharset
  | acceptEncoding
  | acceptLanguage
  | authorization
  | expect
  | from
  | host
  | ifMatch
  | ifModifiedSince
  | ifNoneMatch
  | ifRange
  | ifUnmodifiedSince
  | maxForwards
  | proxyAuthorization
  | range
  | referer
  | te
  | userAgent
  | acceptRanges
  | age
  | etag
  | location
  | proxyAuthenticate
  | retryAfter
  | server
  | vary
  | wwwAuthenticate
  | allow
  | contentEncoding
  | contentLanguage
  | contentLength
  | contentLocation
  | contentMd5
  | contentRange
  | contentType
  | expires
  | lastModified
  | extensionHeader
  deriving DecidableEq, Repr

namespace HeaderId

def standardName : HeaderId → Bytes
  | .cacheControl => ascii "Cache-Control"
  | .connection => ascii "Connection"
  | .date => ascii "Date"
  | .pragma => ascii "Pragma"
  | .trailer => ascii "Trailer"
  | .transferEncoding => ascii "Transfer-Encoding"
  | .upgrade => ascii "Upgrade"
  | .via => ascii "Via"
  | .warning => ascii "Warning"
  | .accept => ascii "Accept"
  | .acceptCharset => ascii "Accept-Charset"
  | .acceptEncoding => ascii "Accept-Encoding"
  | .acceptLanguage => ascii "Accept-Language"
  | .authorization => ascii "Authorization"
  | .expect => ascii "Expect"
  | .from => ascii "From"
  | .host => ascii "Host"
  | .ifMatch => ascii "If-Match"
  | .ifModifiedSince => ascii "If-Modified-Since"
  | .ifNoneMatch => ascii "If-None-Match"
  | .ifRange => ascii "If-Range"
  | .ifUnmodifiedSince => ascii "If-Unmodified-Since"
  | .maxForwards => ascii "Max-Forwards"
  | .proxyAuthorization => ascii "Proxy-Authorization"
  | .range => ascii "Range"
  | .referer => ascii "Referer"
  | .te => ascii "TE"
  | .userAgent => ascii "User-Agent"
  | .acceptRanges => ascii "Accept-Ranges"
  | .age => ascii "Age"
  | .etag => ascii "ETag"
  | .location => ascii "Location"
  | .proxyAuthenticate => ascii "Proxy-Authenticate"
  | .retryAfter => ascii "Retry-After"
  | .server => ascii "Server"
  | .vary => ascii "Vary"
  | .wwwAuthenticate => ascii "WWW-Authenticate"
  | .allow => ascii "Allow"
  | .contentEncoding => ascii "Content-Encoding"
  | .contentLanguage => ascii "Content-Language"
  | .contentLength => ascii "Content-Length"
  | .contentLocation => ascii "Content-Location"
  | .contentMd5 => ascii "Content-MD5"
  | .contentRange => ascii "Content-Range"
  | .contentType => ascii "Content-Type"
  | .expires => ascii "Expires"
  | .lastModified => ascii "Last-Modified"
  | .extensionHeader => ascii "extension-header"

def lowercaseName : HeaderId → Bytes
  | .cacheControl => ascii "cache-control"
  | .connection => ascii "connection"
  | .date => ascii "date"
  | .pragma => ascii "pragma"
  | .trailer => ascii "trailer"
  | .transferEncoding => ascii "transfer-encoding"
  | .upgrade => ascii "upgrade"
  | .via => ascii "via"
  | .warning => ascii "warning"
  | .accept => ascii "accept"
  | .acceptCharset => ascii "accept-charset"
  | .acceptEncoding => ascii "accept-encoding"
  | .acceptLanguage => ascii "accept-language"
  | .authorization => ascii "authorization"
  | .expect => ascii "expect"
  | .from => ascii "from"
  | .host => ascii "host"
  | .ifMatch => ascii "if-match"
  | .ifModifiedSince => ascii "if-modified-since"
  | .ifNoneMatch => ascii "if-none-match"
  | .ifRange => ascii "if-range"
  | .ifUnmodifiedSince => ascii "if-unmodified-since"
  | .maxForwards => ascii "max-forwards"
  | .proxyAuthorization => ascii "proxy-authorization"
  | .range => ascii "range"
  | .referer => ascii "referer"
  | .te => ascii "te"
  | .userAgent => ascii "user-agent"
  | .acceptRanges => ascii "accept-ranges"
  | .age => ascii "age"
  | .etag => ascii "etag"
  | .location => ascii "location"
  | .proxyAuthenticate => ascii "proxy-authenticate"
  | .retryAfter => ascii "retry-after"
  | .server => ascii "server"
  | .vary => ascii "vary"
  | .wwwAuthenticate => ascii "www-authenticate"
  | .allow => ascii "allow"
  | .contentEncoding => ascii "content-encoding"
  | .contentLanguage => ascii "content-language"
  | .contentLength => ascii "content-length"
  | .contentLocation => ascii "content-location"
  | .contentMd5 => ascii "content-md5"
  | .contentRange => ascii "content-range"
  | .contentType => ascii "content-type"
  | .expires => ascii "expires"
  | .lastModified => ascii "last-modified"
  | .extensionHeader => ascii "extension-header"

end HeaderId

def reasons : List (ℕ × Bytes) :=
  [(100,ascii "Continue"),
   (101,ascii "Switching Protocols"),
   (200,ascii "OK"),
   (201,ascii "Created"),
   (202,ascii "Accepted"),
   (203,ascii "Non-Authoritative Information"),
   (204,ascii "No Content"),
   (205,ascii "Reset Content"),
   (206,ascii "Partial Content"),
   (300,ascii "Multiple Choices"),
   (301,ascii "Moved Permanently"),
   (302,ascii "Found"),
   (303,ascii "See Other"),
   (304,ascii "Not Modified"),
   (305,ascii "Use Proxy"),
   (307,ascii "Temporary Redirect"),
   (400,ascii "Bad Request"),
   (401,ascii "Unauthorized"),
   (402,ascii "Payment Required"),
   (403,ascii "Forbidden"),
   (404,ascii "Not Found"),
   (405,ascii "Method Not Allowed"),
   (406,ascii "Not Acceptable"),
   (407,ascii "Proxy Authentication Required"),
   (408,ascii "Request Time-out"),
   (409,ascii "Conflict"),
   (410,ascii "Gone"),
   (411,ascii "Length Required"),
   (412,ascii "Precondition Failed"),
   (413,ascii "Request Entity Too Large"),
   (414,ascii "Request-URI Too Large"),
   (415,ascii "Unsupported Media Type"),
   (416,ascii "Requested range not satisfiable"),
   (417,ascii "Expectation Failed"),
   (500,ascii "Internal Server Error"),
   (501,ascii "Not Implemented"),
   (502,ascii "Bad Gateway"),
   (503,ascii "Service Unavailable"),
   (504,ascii "Gateway Time-out"),
   (505,ascii "HTTP Version not supported")]

def reasonPhrase (code : ℕ) : Bytes := (reasons.lookup code).getD []

def httpVersion (major minor : Int32) : Bytes :=
  ascii "HTTP/" ++ Decimal.integer major.toInt ++ 46::Decimal.integer minor.toInt

def hexChar (d : ℕ) : UInt8 := UInt8.ofNat (if d < 10 then 48+d else 87+d)

def toHexString (n : ℕ) : Bytes :=
  if n = 0 then [hexChar 0] else ((Nat.digits 16 n).reverse).map hexChar

/-- A size is converted to an `int`. -/
def toDecString (size : ℕ) : Bytes := Decimal.integer ((size : ℤ).bmod (2^32))

def toHeader (name value : Bytes) : Bytes := name ++ ascii ": " ++ value ++ crlf

/-- `header_field::content_length` -/
def contentLengthHeader (size : ℕ) : Bytes :=
  toHeader HeaderId.contentLength.standardName (toDecString size)

/-- What `message` adds to a header string, and the empty line. -/
def headerText (headerString : Bytes) (size : ℕ) : Bytes :=
  headerString ++
    (if !Http.contains HeaderId.contentLength.standardName headerString &&
        !Http.contains HeaderId.transferEncoding.standardName headerString then
      contentLengthHeader size
    else []) ++ crlf

structure TxRequest where
  method : Bytes
  uri : Bytes
  majorVersion : Int32
  minorVersion : Int32
  headerString : Bytes
  deriving DecidableEq, Repr

namespace TxRequest

/-- `request_line::to_string` -/
def lineText (r : TxRequest) : Bytes :=
  r.method ++ 32::r.uri ++ 32::httpVersion r.majorVersion r.minorVersion ++ crlf

def addHeader (r : TxRequest) (name value : Bytes) : TxRequest :=
  { r with headerString := r.headerString ++ toHeader name value }

def message (r : TxRequest) (size : ℕ) : Bytes := r.lineText ++ headerText r.headerString size

end TxRequest

structure TxResponse where
  majorVersion : Int32
  minorVersion : Int32
  status : Int32
  reasonPhrase : Bytes
  headerString : Bytes
  deriving DecidableEq, Repr

namespace TxResponse

/-- `tx_response::tx_response` for a standard code. -/
def standard (code : ℕ) : TxResponse := ⟨1,1,Int32.ofNat code,Via.reasonPhrase code,[]⟩

/-- `response_line::to_string` -/
def lineText (r : TxResponse) : Bytes :=
  httpVersion r.majorVersion r.minorVersion ++ 32::Decimal.integer r.status.toInt ++
    32::r.reasonPhrase ++ crlf

def addHeader (r : TxResponse) (name value : Bytes) : TxResponse :=
  { r with headerString := r.headerString ++ toHeader name value }

def message (r : TxResponse) (size : ℕ) : Bytes := r.lineText ++ headerText r.headerString size

end TxResponse

/-- The encoding constructor of `chunk_header`. -/
def ChunkHeader.encode (size : ℕ) (extension : Bytes) : ChunkHeader :=
  { ChunkHeader.cleared with size := size, hexSize := toHexString size, extension := extension }

def extensionText (extension : Bytes) : Bytes :=
  if extension ≠ [] then ascii "; " ++ extension else []

/-- `chunk_header::to_string` -/
def ChunkHeader.text (h : ChunkHeader) : Bytes := h.hexSize ++ extensionText h.extension ++ crlf

/-- What `send_chunk` sends. -/
def sendChunk (chunk extension : Bytes) : Bytes :=
  (ChunkHeader.encode chunk.length extension).text ++ chunk ++ crlf

/-- `last_chunk::message` -/
def lastChunk (extension trailerString : Bytes) : Bytes :=
  ascii "0" ++ extensionText extension ++ crlf ++ trailerString ++ crlf

theorem hexChar_digit : ∀ d < 16, isXDigit (hexChar d) = true ∧ hexDigit (hexChar d) = d := by
  decide

theorem toHexString_digits (n : ℕ) : ∀ c ∈ toHexString n, isXDigit c = true := by
  intro c hc
  unfold toHexString at hc
  split at hc
  · obtain rfl : c = hexChar 0 := by simpa using hc
    decide
  · obtain ⟨d,hd,rfl⟩ := List.mem_map.mp hc
    exact (hexChar_digit d (Nat.digits_lt_base (by decide) (List.mem_reverse.mp hd))).1

theorem toHexString_ne_nil (n : ℕ) : toHexString n ≠ [] := by
  unfold toHexString
  split
  · simp
  · rename_i hn
    simpa [Nat.digits_eq_nil_iff_eq_zero] using hn

theorem fromHexString_toHexString (n : ℕ) (h : n ≤ Http.ulongMax) :
    fromHexString (toHexString n) = n := by
  have hvalue : (toHexString n).foldl (fun n c => 16*n+hexDigit c) 0 = n := by
    unfold toHexString
    by_cases hn : n = 0
    · subst hn
      rfl
    · rw [if_neg hn, List.foldl_map]
      have hlt : ∀ d ∈ (Nat.digits 16 n).reverse, d < 16 :=
        fun d hd => Nat.digits_lt_base (by decide) (List.mem_reverse.mp hd)
      have hcongr (v : ℕ) : ((Nat.digits 16 n).reverse).foldl
          (fun n d => 16*n+hexDigit (hexChar d)) v =
            ((Nat.digits 16 n).reverse).foldl (fun v d => 16*v+d) v := by
        apply List.foldl_ext
        intro v d hd
        rw [(hexChar_digit d (hlt d hd)).2]
      rw [hcongr, Decimal.digits_fold]
  have hall : (toHexString n).all isXDigit = true :=
    List.all_eq_true.mpr (toHexString_digits n)
  rw [fromHexString, if_pos (by simp [hall, toHexString_ne_nil]), hvalue, Nat.min_eq_left h]

theorem leading_digits (s : Bytes) (h : ∀ b ∈ s, Decimal.IsDigit b) :
    leading s = Decimal.value s := by
  rw [leading, Decimal.value, List.takeWhile_eq_self_iff.mpr (by simpa using h)]

theorem natural_digits {n : ℕ} {c : UInt8} (hc : c ∈ Decimal.natural n) : isDigit c = true :=
  decide_eq_true (Decimal.natural_isDigit n c hc)

/-- An `int` that is not negative is written in digits. -/
theorem integer_natural {v : Int32} (h : 0 ≤ v) :
    ∃ n : ℕ, v = Int32.ofNat n ∧ Decimal.integer v.toInt = Decimal.natural n := by
  have hv : (0 : ℤ) ≤ v.toInt := Int32.le_iff_toInt_le.mp h
  refine ⟨v.toNatClampNeg,(Int32.ofNat_toNatClampNeg v h).symm,?_⟩
  rw [← Int.toNat_of_nonneg hv]
  rfl

theorem integer_negative {v : Int32} (h : ¬ 0 ≤ v) :
    ∃ n : ℕ, Decimal.integer v.toInt = 45::Decimal.natural n := by
  rw [Int32.le_iff_toInt_le] at h
  cases hv : v.toInt with
  | ofNat n => exact absurd (by rw [hv]; exact Int.natCast_nonneg n) h
  | negSucc n => exact ⟨n+1,rfl⟩

/-- One digit more of an `int`. -/
theorem value_readDigit (w : Bytes) (c : UInt8) :
    Int32.ofNat (Decimal.value w)*10+readDigit c = Int32.ofNat (Decimal.value (w++[c])) := by
  rw [Decimal.value_concat, Int32.ofNat_add, Int32.ofNat_mul]
  rfl

theorem fromDecString_natural (n : ℕ) (h : n ≤ Http.ulongMax) :
    Http.fromDecString (Decimal.natural n) = n := by
  have hdigits := Decimal.natural_isDigit n
  have hall : (Decimal.natural n).all (fun b => decide (Decimal.IsDigit b)) = true :=
    List.all_eq_true.mpr (fun b hb => decide_eq_true (hdigits b hb))
  rw [Http.fromDecString, if_pos hall, leading_digits _ hdigits, Decimal.value_natural,
    Nat.min_eq_left h]

theorem HeaderId.lowercase (i : HeaderId) : i.lowercaseName = Http.toLower i.standardName := by
  cases i <;> decide

end RethinkLog.Via
