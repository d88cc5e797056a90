import BackendLab.Support.HeadLines

/-!
# The responses of the HTTP server

`process_request` and `create_response` of `http_connection`, with what they use
of `http::response`, and the text that `http::async_write` sends.  A request is
taken as the parser of the library hands it over; its method and its target may
be any text.

Whatever a client sends, the head of the response consists of lines that the
server has chosen, and gives the length of the body, so that a reader finds the
body as it was written and knows where it ends.
-/

namespace BackendLab.HttpServer

open Support

/-! ## Messages -/

/-- The versions that the parser of the library lets through. -/
inductive Version where
  | http10
  | http11
  deriving DecidableEq, Repr

inductive Status where
  | ok
  | badRequest
  | notFound
  deriving DecidableEq, Repr

inductive Verb where
  | get
  | post
  | other
  deriving DecidableEq, Repr

structure Request where
  version : Version
  methodString : Bytes
  target : Bytes
  deriving DecidableEq, Repr

def Request.method (request : Request) : Verb :=
  if request.methodString = ascii "GET" then .get
  else if request.methodString = ascii "POST" then .post
  else .other

/-- The fields in the order in which they are sent. -/
structure Response where
  version : Version
  result : Status
  fields : List (Bytes × Bytes)
  body : Bytes
  deriving DecidableEq, Repr

namespace Response

def server : Bytes := ascii "Server"
def connection : Bytes := ascii "Connection"
def contentType : Bytes := ascii "Content-Type"
def contentLengthName : Bytes := ascii "Content-Length"

def start (version : Version) : Response := ⟨version, .ok, [], []⟩

/-- `set`: a field of the same name is removed, and the new one is the last. -/
def set (r : Response) (name value : Bytes) : Response :=
  { r with fields := r.fields.filter (·.1 ≠ name) ++ [(name, value)] }

/-- `keep_alive(false)` of a response that has no `Connection` field: for
`HTTP/1.0` there is nothing to say. -/
def close (r : Response) : Response :=
  match r.version with
  | .http10 => r
  | .http11 => r.set connection (ascii "close")

/-- `beast::ostream(_response.body())`. -/
def append (r : Response) (text : Bytes) : Response :=
  { r with body := r.body ++ text }

/-- `content_length`, for a message that is not chunked. -/
def contentLength (r : Response) (n : ℕ) : Response :=
  r.set contentLengthName (natText n)

end Response

/-! ## Answering a request -/

/-- The page with a number in it. -/
def page (number : Bytes) : Bytes :=
  ascii "<html>\n" ++ ascii "<head><title>Request count</title></head>\n" ++
    ascii "<body>\n" ++ ascii "<h1>Request count</h1>\n" ++
    ascii "<p>There have been " ++ number ++ ascii " requests so far.</p>\n" ++
    ascii "</body>\n" ++ ascii "</html>\n"

/-- `program_state::request_count`: the counter is a `std::size_t`. -/
def requestCount (count : ℕ) : ℕ :=
  (count + 1) % 2 ^ 64

/-- `create_response`, with the counter and the time.  Of the two only the counter
is changed. -/
def createResponse (request : Request) (count : ℕ) (now : ℤ) (r : Response) :
    Response × ℕ :=
  if request.target = ascii "/count" then
    ((r.set Response.contentType (ascii "text/html")).append
      (page (natText (requestCount count))), requestCount count)
  else if request.target = ascii "/time" then
    ((r.set Response.contentType (ascii "text/html")).append
      (page (intText now)), count)
  else
    (({ r with result := .notFound }.set Response.contentType
      (ascii "text/plain")).append (ascii "File not found\r\n"), count)

/-- `process_request` up to `write_response`. -/
def processRequest (request : Request) (count : ℕ) (now : ℤ) : Response × ℕ :=
  let r := (Response.start request.version).close
  match request.method with
  | .get =>
      createResponse request count now
        ({ r with result := .ok }.set Response.server (ascii "Beast"))
  | .post => (r, count)
  | .other =>
      (({ r with result := .badRequest }.set Response.contentType
        (ascii "text/plain")).append
          (ascii "Invalid request-method: '" ++ request.methodString ++
            ascii "'"), count)

/-- `write_response`, before the write is started. -/
def writeResponse (r : Response) : Response :=
  r.contentLength r.body.length

/-- The response to a request and the counter after it. -/
def respond (request : Request) (count : ℕ) (now : ℤ) : Response × ℕ :=
  (writeResponse (processRequest request count now).1,
    (processRequest request count now).2)

/-! ## The text of a response -/

def Version.text : Version → Bytes
  | .http10 => ascii "HTTP/1.0"
  | .http11 => ascii "HTTP/1.1"

def Status.code : Status → Bytes
  | .ok => ascii "200"
  | .badRequest => ascii "400"
  | .notFound => ascii "404"

/-- `obsolete_reason`. -/
def Status.reason : Status → Bytes
  | .ok => ascii "OK"
  | .badRequest => ascii "Bad Request"
  | .notFound => ascii "Not Found"

def statusLine (version : Version) (result : Status) : Bytes :=
  version.text ++ ascii " " ++ result.code ++ ascii " " ++ result.reason

def fieldLine (field : Bytes × Bytes) : Bytes :=
  field.1 ++ ascii ": " ++ field.2

/-- The lines of the head. -/
def Response.lines (r : Response) : List Bytes :=
  statusLine r.version r.result :: r.fields.map fieldLine

def Response.serialize (r : Response) : Bytes :=
  (r.lines.flatMap fun line => line ++ crlf) ++ (crlf ++ r.body)

/-- What a client looks for in the head of a response. -/
def lengthMark : Bytes := Response.contentLengthName ++ ascii ": "

/-! ## The fields of a response -/

theorem set_of_ne {r : Response} {name : Bytes}
    (h : ∀ field ∈ r.fields, field.1 ≠ name) (value : Bytes) :
    r.set name value = { r with fields := r.fields ++ [(name, value)] } := by
  have hkeep : r.fields.filter (·.1 ≠ name) = r.fields := by
    rw [List.filter_eq_self]
    intro field hfield
    simp [h field hfield]
  rw [Response.set, hkeep]

/-- The names and values that the server gives to fields before the length is
known. -/
def plainFields : List (Bytes × Bytes) :=
  [(Response.connection, ascii "close"), (Response.server, ascii "Beast"),
    (Response.contentType, ascii "text/html"),
    (Response.contentType, ascii "text/plain")]

theorem mem_set {r : Response} {name value : Bytes} {field : Bytes × Bytes}
    (h : field ∈ (r.set name value).fields) :
    field ∈ r.fields ∨ field = (name, value) := by
  rcases List.mem_append.mp h with h | h
  · exact .inl (List.mem_filter.mp h).1
  · exact .inr (List.mem_singleton.mp h)

theorem mem_fields_close {version : Version} {field : Bytes × Bytes}
    (h : field ∈ (Response.start version).close.fields) : field ∈ plainFields := by
  cases version with
  | http10 => cases h
  | http11 =>
      rcases mem_set h with h | rfl
      · cases h
      · decide

theorem mem_fields_createResponse {request : Request} {count : ℕ} {now : ℤ}
    {r : Response} (hr : ∀ field ∈ r.fields, field ∈ plainFields)
    {field : Bytes × Bytes}
    (h : field ∈ (createResponse request count now r).1.fields) :
    field ∈ plainFields := by
  rw [createResponse] at h
  split at h
  · rcases mem_set h with h | rfl
    · exact hr field h
    · decide
  · split at h
    · rcases mem_set h with h | rfl
      · exact hr field h
      · decide
    · rcases mem_set h with h | rfl
      · exact hr field h
      · decide

theorem mem_fields_processRequest {request : Request} {count : ℕ} {now : ℤ}
    {field : Bytes × Bytes}
    (h : field ∈ (processRequest request count now).1.fields) :
    field ∈ plainFields := by
  rw [processRequest] at h
  cases hmethod : request.method with
  | get =>
      simp only [hmethod] at h
      apply mem_fields_createResponse _ h
      intro field hfield
      rcases mem_set hfield with hfield | rfl
      · exact mem_fields_close hfield
      · decide
  | post =>
      simp only [hmethod] at h
      exact mem_fields_close h
  | other =>
      simp only [hmethod] at h
      rcases mem_set h with h | rfl
      · exact mem_fields_close h
      · decide

theorem fields_respond (request : Request) (count : ℕ) (now : ℤ) :
    (respond request count now).1.fields =
      (processRequest request count now).1.fields ++
        [(Response.contentLengthName,
          natText (respond request count now).1.body.length)] := by
  have hnames : ∀ field ∈ plainFields, field.1 ≠ Response.contentLengthName := by
    decide
  have hplain (field) (hfield : field ∈ (processRequest request count now).1.fields) :
      field.1 ≠ Response.contentLengthName :=
    hnames field (mem_fields_processRequest hfield)
  have hset := set_of_ne hplain
  simp only [respond, writeResponse, Response.contentLength, hset]

/-! ## The response as a client reads it -/

theorem isLine_statusLine (version : Version) (result : Status) :
    IsLine (statusLine version result) := by
  cases version <;> cases result <;> exact ⟨by decide, by decide⟩

theorem isLine_plain {field : Bytes × Bytes} (h : field ∈ plainFields) :
    IsLine (fieldLine field) := by
  have hall : ∀ field ∈ plainFields, fieldLine field ≠ [] ∧ 13 ∉ fieldLine field := by
    decide
  exact ⟨(hall field h).1, (hall field h).2⟩

theorem isLine_length (n : ℕ) : IsLine (lengthMark ++ natText n) := by
  constructor
  · intro hnil
    cases (List.append_eq_nil_iff.mp hnil).1
  · intro hmem
    rcases List.mem_append.mp hmem with hmem | hmem
    · exact absurd hmem (by decide)
    · exact absurd (mem_natText hmem) (by decide)

theorem not_lengthMark_statusLine (version : Version) (result : Status) :
    ¬ lengthMark <+: statusLine version result := by
  cases version <;> cases result <;> decide

theorem lines_respond (request : Request) (count : ℕ) (now : ℤ) :
    (respond request count now).1.lines =
      (statusLine (respond request count now).1.version
          (respond request count now).1.result ::
        (processRequest request count now).1.fields.map fieldLine) ++
        [lengthMark ++ natText (respond request count now).1.body.length] := by
  rw [Response.lines, fields_respond, List.map_append]
  rfl

theorem exists_plain_of_mem_fields {request : Request} {count : ℕ} {now : ℤ}
    {line : Bytes}
    (h : line ∈ (processRequest request count now).1.fields.map fieldLine) :
    ∃ field ∈ plainFields, line = fieldLine field := by
  obtain ⟨field, hfield, rfl⟩ := List.mem_map.mp h
  exact ⟨field, mem_fields_processRequest hfield, rfl⟩

theorem isLine_respond {request : Request} {count : ℕ} {now : ℤ} {line : Bytes}
    (h : line ∈ (respond request count now).1.lines) : IsLine line := by
  rw [lines_respond, List.mem_append, List.mem_cons, List.mem_singleton] at h
  rcases h with (rfl | h) | rfl
  · exact isLine_statusLine _ _
  · obtain ⟨field, hfield, rfl⟩ := exists_plain_of_mem_fields h
    exact isLine_plain hfield
  · exact isLine_length _

theorem valueAfter_respond (request : Request) (count : ℕ) (now : ℤ) :
    valueAfter lengthMark (respond request count now).1.lines =
      some (natText (respond request count now).1.body.length) := by
  rw [lines_respond]
  apply valueAfter_append
  intro line hline
  rcases List.mem_cons.mp hline with rfl | hline
  · exact not_lengthMark_statusLine _ _
  · obtain ⟨field, hfield, rfl⟩ := exists_plain_of_mem_fields hline
    have hall : ∀ field ∈ plainFields, ¬ lengthMark <+: fieldLine field := by
      decide
    exact hall field hfield

theorem readMessage_respond (request : Request) (count : ℕ) (now : ℤ)
    (rest : Bytes) :
    readMessage lengthMark ((respond request count now).1.serialize ++ rest) =
      some ((respond request count now).1.lines,
        (respond request count now).1.body, rest) := by
  rw [Response.serialize, List.append_assoc, List.append_assoc]
  exact readMessage_append (fun _ => isLine_respond)
    (valueAfter_respond request count now) rest

/-- The response to any request, followed by anything, is read back by its head:
the lines, the body and what follows.  Behind the first line, every line of the
head is one of four fixed ones or the length of the body, so that nothing of what
the client has sent gets into the head. -/
theorem response_read_back (request : Request) (count : ℕ) (now : ℤ)
    (rest : Bytes) :
    readMessage lengthMark ((respond request count now).1.serialize ++ rest) =
        some ((respond request count now).1.lines,
          (respond request count now).1.body, rest) ∧
      (∀ line ∈ (respond request count now).1.lines.tail,
        (∃ field ∈ plainFields, line = fieldLine field) ∨
          line = lengthMark ++
            natText (respond request count now).1.body.length) := by
  refine ⟨readMessage_respond request count now rest, ?_⟩
  intro line hline
  rw [lines_respond, List.cons_append, List.tail_cons, List.mem_append,
    List.mem_singleton] at hline
  exact hline.imp exists_plain_of_mem_fields id

end BackendLab.HttpServer
