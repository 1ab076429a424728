import Vklib.Requests.Url
import Vklib.Requests.Lines

/-!
# The request of `request_get`

`request_get` connects to the host of the URL, writes the request into an array
of `REQUEST_SIZE` bytes and sends it.  What the network answers is a parameter.

The request is meant to be five lines and an empty line (`IsRequest`).  The path
and the domain name of the URL are copied into it as they are, so a URL can make
it too long, and it can end a line.  Counting the line breaks shows that nothing
else can go wrong (`request_integrity_iff`).
-/

namespace Vklib.Requests

/-! ## Connecting and sending -/

/-- What the calls of the network library return. -/
structure Network where
  getprotobyname : Bytes → Option Int
  socket : Int → Int
  gethostbyname : Bytes → Option UInt32
  connect : Int → UInt16 → UInt32 → Int
  send : Int → Bytes → Int
  recv : Int → Bytes → List (Option Bytes)

/-- `htons` of an `int`, which is converted to 16 bits first. -/
def htons (port : Int) : UInt16 :=
  let p := (port % 2 ^ 16).toNat
  UInt16.ofNat (p % 2 ^ 8 * 2 ^ 8 + p / 2 ^ 8)

/-- `request_get` up to the call of `connect`. -/
def connectTo (net : Network) (url : Bytes) : Outcome Bytes Int := do
  let domain_name := parse_domain_name url
  let port ← (get_port url).lift
  match net.getprotobyname (bytes "tcp") with
  | none => .error (bytes "Could not get protocol information.")
  | some p_proto =>
    let sockfd := net.socket p_proto
    if sockfd < 0 then .error (bytes "Could not create socket.")
    else
      match net.gethostbyname domain_name with
      | none => .error (bytes "Could not get host information.")
      | some h_addr =>
        if net.connect sockfd (htons port) h_addr < 0 then
          .error (bytes "Could not connect to host.")
        else .ok sockfd

/-- The size of the array `request`. -/
def REQUEST_SIZE : Nat := 512

/-- The line of the request that names the client. -/
def agentLine : Bytes :=
  bytes "User-Agent: Mozilla/5.0 (Windows NT 10.0; Win64; x64) " ++
    bytes "AppleWebKit/537.36 (KHTML, like Gecko) " ++ bytes "Chrome/70.0.3538.77 Safari/537.36"

/-- `request_template`. -/
def request_template : Bytes :=
  bytes "GET %s HTTP/1.1\r\nHost: %s\r\n" ++ bytes "Accept: */*\r\nConnection: close\r\n" ++
    agentLine ++ bytes "\r\n\r\n"

/-- The text of the request. -/
def requestText (url : Bytes) : Bytes :=
  sprintf request_template [parse_path url, parse_domain_name url]

/-- `request_get` up to the call of `sprintf`: the socket, and the text that is
written. -/
def written (net : Network) (url : Bytes) : Outcome Bytes (Int × Bytes) := do
  let sockfd ← connectTo net url
  .ok (sockfd, requestText url)

/-- `request_get` up to the call of `send`. -/
def sendRequest (net : Network) (url : Bytes) : Outcome Bytes (Int × Bytes) := do
  let (sockfd, request) ← written net url
  if REQUEST_SIZE < request.length + 1 then .undefined
  else if net.send sockfd request < 0 then .error (bytes "Could not send request.")
  else .ok (sockfd, request)

/-- `request_get` of a Lua string.  An error is returned as `nil` and a
message. -/
def request_get (net : Network) (heap : Nat → UInt8) (grants : Nat → Bool) (bytes_received : Int)
    (url : Bytes) : Outcome Bytes Response := do
  let (sockfd, request) ← sendRequest net (cString url)
  respond heap grants (net.recv sockfd request) bytes_received

/-! ## What the request is meant to be -/

/-- The five lines of a request. -/
def requestLines (target host : Bytes) : List Bytes :=
  [bytes "GET " ++ target ++ bytes " HTTP/1.1", bytes "Host: " ++ host, bytes "Accept: */*",
    bytes "Connection: close", agentLine]

/-- The text is five lines and an empty one.  A line has neither CR nor LF, since
servers take each of them for the end of a line. -/
def IsRequest (text : Bytes) : Prop :=
  ∃ target host, text = render (requestLines target host) ++ [13, 10] ∧
    ∀ line ∈ requestLines target host, ∀ c ∈ line, isBreak c = false

/-- The send step is reached. -/
def SendReached (net : Network) (url : Bytes) : Prop :=
  ∃ sockfd text, written net (cString url) = .ok (sockfd, text)

/-- What is written fits in the array with its terminator, and is a request. -/
def RequestIntegrity (net : Network) (url : Bytes) : Prop :=
  ∀ sockfd text, written net (cString url) = .ok (sockfd, text) →
    text.length + 1 ≤ REQUEST_SIZE ∧ IsRequest text

/-- The path and the domain name are short enough together, and neither has a
line break. -/
structure Plain (url : Bytes) : Prop where
  short : (parse_path url).length + (parse_domain_name url).length ≤ 326
  path : ∀ c ∈ parse_path url, isBreak c = false
  domain_name : ∀ c ∈ parse_domain_name url, isBreak c = false

/-! ## The text of the request -/

/-- The template between its two conversions. -/
theorem request_template_eq : request_template = bytes "GET " ++ 37 :: 115 ::
    (bytes " HTTP/1.1" ++ [13, 10] ++ bytes "Host: " ++ 37 :: 115 ::
      ([13, 10] ++ bytes "Accept: */*" ++ [13, 10] ++ bytes "Connection: close" ++ [13, 10] ++
        agentLine ++ [13, 10, 13, 10])) := by
  have hfirst : bytes "GET %s HTTP/1.1\r\nHost: %s\r\n" = bytes "GET " ++ 37 :: 115 ::
      (bytes " HTTP/1.1" ++ [13, 10] ++ bytes "Host: " ++ [37, 115, 13, 10]) := by decide +kernel
  have hsecond : bytes "Accept: */*\r\nConnection: close\r\n" =
      bytes "Accept: */*" ++ [13, 10] ++ bytes "Connection: close" ++ [13, 10] := by decide +kernel
  have hend : bytes "\r\n\r\n" = [13, 10, 13, 10] := by decide
  rw [request_template, hfirst, hsecond, hend]
  simp

/-- The literals of the template have no conversion. -/
theorem percent_not_mem_literals : 37 ∉ bytes "GET " ∧
    37 ∉ bytes " HTTP/1.1" ++ [13, 10] ++ bytes "Host: " ∧
    37 ∉ [13, 10] ++ bytes "Accept: */*" ++ [13, 10] ++ bytes "Connection: close" ++ [13, 10] ++
      agentLine ++ [13, 10, 13, 10] := by
  decide +kernel

/-- The path and the domain name are copied into the lines. -/
theorem requestText_eq (url : Bytes) :
    requestText url =
      render (requestLines (parse_path url) (parse_domain_name url)) ++ [13, 10] := by
  obtain ⟨hget, hhost, hrest⟩ := percent_not_mem_literals
  have hend := sprintf_append hrest [] []
  rw [List.append_nil, sprintf_nil, List.append_nil] at hend
  unfold requestText
  rw [request_template_eq, sprintf_append hget, sprintf_arg, sprintf_append hhost, sprintf_arg, hend]
  simp [render, requestLines, withBreak]

theorem countP_eq_zero_iff {s : Bytes} :
    s.countP isBreak = 0 ↔ ∀ c ∈ s, isBreak c = false := by
  rw [List.countP_eq_zero]
  simp

/-- The template has line breaks at the ends of its lines only. -/
theorem countP_literals : (bytes "GET ").countP isBreak = 0 ∧
    (bytes " HTTP/1.1").countP isBreak = 0 ∧ (bytes "Host: ").countP isBreak = 0 ∧
    (bytes "Accept: */*").countP isBreak = 0 ∧ (bytes "Connection: close").countP isBreak = 0 ∧
    agentLine.countP isBreak = 0 := by
  decide +kernel

/-- The line breaks in the lines of a request are those of the parts. -/
theorem countP_flatten_requestLines (target host : Bytes) :
    (requestLines target host).flatten.countP isBreak =
      target.countP isBreak + host.countP isBreak := by
  obtain ⟨hget, hversion, hhost, haccept, hclose, hagent⟩ := countP_literals
  simp only [requestLines, List.flatten_cons, List.flatten_nil, List.countP_append, hget, hversion,
    hhost, haccept, hclose, hagent, List.countP_nil]
  omega

/-- Behind each line there are two more. -/
theorem countP_render (lines : List Bytes) :
    (render lines).countP isBreak = lines.flatten.countP isBreak + 2 * lines.length := by
  induction lines with
  | nil => rfl
  | cons line lines ih =>
    have hcrlf : ([13, 10] : Bytes).countP isBreak = 2 := by decide
    rw [render, List.flatMap_cons, List.countP_append, ← render, ih, withBreak, List.countP_append,
      hcrlf, List.flatten_cons, List.countP_append, List.length_cons]
    omega

/-- The line breaks of the text with these parts. -/
theorem countP_request (target host : Bytes) :
    (render (requestLines target host) ++ [13, 10]).countP isBreak =
      target.countP isBreak + host.countP isBreak + 12 := by
  have hcrlf : ([13, 10] : Bytes).countP isBreak = 2 := by decide
  rw [List.countP_append, countP_render, countP_flatten_requestLines, hcrlf]
  show _ + 2 * 5 + 2 = _
  omega

/-- The text is a request exactly when no part has a line break. -/
theorem isRequest_iff (target host : Bytes) :
    IsRequest (render (requestLines target host) ++ [13, 10]) ↔
      (∀ c ∈ target, isBreak c = false) ∧ ∀ c ∈ host, isBreak c = false := by
  constructor
  · rintro ⟨target', host', htext, hlines⟩
    have hcount := congrArg (List.countP isBreak) htext
    have hnone : (requestLines target' host').flatten.countP isBreak = 0 := by
      rw [countP_eq_zero_iff]
      intro c hc
      obtain ⟨line, hline, hmem⟩ := List.mem_flatten.mp hc
      exact hlines line hline c hmem
    rw [countP_flatten_requestLines] at hnone
    rw [countP_request, countP_request, hnone] at hcount
    rw [← countP_eq_zero_iff, ← countP_eq_zero_iff]
    omega
  · intro ⟨htarget, hhost⟩
    refine ⟨target, host, rfl, fun line hline c hc => ?_⟩
    rw [← countP_eq_zero_iff] at htarget hhost
    have hnone := countP_flatten_requestLines target host
    rw [htarget, hhost, countP_eq_zero_iff] at hnone
    exact hnone c (List.mem_flatten.mpr ⟨line, hline, hc⟩)

/-- The length of the text with these parts. -/
theorem length_request (target host : Bytes) :
    (render (requestLines target host) ++ [13, 10]).length = 185 + target.length + host.length := by
  have hget : (bytes "GET ").length = 4 := by decide
  have hversion : (bytes " HTTP/1.1").length = 9 := by decide
  have hhost : (bytes "Host: ").length = 6 := by decide
  have haccept : (bytes "Accept: */*").length = 11 := by decide
  have hclose : (bytes "Connection: close").length = 17 := by decide
  have hagent : agentLine.length = 126 := by decide +kernel
  simp only [render, requestLines, withBreak, List.flatMap_cons, List.flatMap_nil,
    List.length_append, hget, hversion, hhost, haccept, hclose, hagent, List.length_cons,
    List.length_nil]
  omega

/-- The text for a URL fits and is a request exactly when its parts are plain. -/
theorem requestText_iff_plain (url : Bytes) :
    ((requestText url).length + 1 ≤ REQUEST_SIZE ∧ IsRequest (requestText url)) ↔ Plain url := by
  rw [requestText_eq, isRequest_iff, length_request]
  unfold REQUEST_SIZE
  constructor
  · intro ⟨hlength, hpath, hdomain⟩
    exact ⟨by omega, hpath, hdomain⟩
  · intro h
    have hshort := h.short
    exact ⟨by omega, h.path, h.domain_name⟩

theorem text_of_written {net : Network} {url : Bytes} {sockfd : Int} {text : Bytes}
    (h : written net url = .ok (sockfd, text)) : text = requestText url := by
  obtain ⟨sockfd', -, htext⟩ := Outcome.bind_eq_ok_iff.mp h
  rw [Outcome.ok.injEq, Prod.mk.injEq] at htext
  exact htext.2.symm

/-- After a plain request what is left to do is `respond`. -/
theorem request_get_of_plain {net : Network} {url : Bytes} {sockfd : Int} {text : Bytes}
    (hplain : Plain (cString url)) (hwritten : written net (cString url) = .ok (sockfd, text))
    (hsend : 0 ≤ net.send sockfd text) (heap : Nat → UInt8) (grants : Nat → Bool)
    (bytes_received : Int) : request_get net heap grants bytes_received url =
      respond heap grants (net.recv sockfd text) bytes_received := by
  have hfits : ¬ REQUEST_SIZE < text.length + 1 := by
    rw [text_of_written hwritten]
    exact Nat.not_lt.mpr ((requestText_iff_plain _).mpr hplain).1
  unfold request_get sendRequest
  rw [hwritten, Outcome.ok_bind]
  simp only [if_neg hfits, if_neg (Int.not_lt.mpr hsend), Outcome.ok_bind]

/-- A network in which every host answers. -/
def openNetwork : Network where
  getprotobyname _ := some 6
  socket _ := 3
  gethostbyname _ := some 16777343
  connect _ _ _ := 0
  send _ request := request.length
  recv _ _ := []

end Vklib.Requests
