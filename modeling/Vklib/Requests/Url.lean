import Vklib.Base.StringFunctions

/-!
# The URL of a request

`parse_domain_name`, `parse_path` and `get_port` each read the whole URL.  All
three step over the scheme, and then search for the first colon and the first
slash.

`Url` is a URL in its parts.  The domain name and the path are always found.
`get_port` takes any colon behind the host for the start of a port, also one in
the path, so `url_decomposes_iff` asks that a port is given or that the path has
no colon, unless what follows the colon happens to read 80.
-/

namespace Vklib.Requests

/-- The step over the scheme, with which all three parsers start. -/
def skip_scheme (url : Bytes) : Bytes :=
  if strncmp url (bytes "http://") 7 = 0 then url.drop 7
  else if strncmp url (bytes "https://") 8 = 0 then url.drop 8
  else url

/-- `parse_domain_name`. -/
def parse_domain_name (url : Bytes) : Bytes :=
  let domain_name := cutAt (skip_scheme url) 58
  cutAt domain_name 47

/-- `parse_path`. -/
def parse_path (url : Bytes) : Bytes :=
  let path := skip_scheme url
  match strchr path 47 with
  | some i => path.drop i
  | none => bytes "/"

/-- `get_port`, which is undefined when `atoi` is. -/
def get_port (url : Bytes) : Outcome Empty Int :=
  let port_number := skip_scheme url
  match strchr port_number 58 with
  | some i => atoi (cutAt (port_number.drop (i + 1)) 47)
  | none => .ok 80

/-! ## URLs -/

inductive Scheme where
  | absent
  | http
  | https
  deriving DecidableEq, Repr

def Scheme.text : Scheme → Bytes
  | .absent => []
  | .http => bytes "http://"
  | .https => bytes "https://"

/-- The parts of a URL.  A host without colon does not start with a scheme. -/
structure Url where
  scheme : Scheme
  host : Bytes
  port : Option Nat
  path : Bytes
  host_ne : host ≠ []
  host_text : NulFree host ∧ 58 ∉ host ∧ 47 ∉ host
  port_range : ∀ p ∈ port, 1 ≤ p ∧ p ≤ 65535
  path_text : NulFree path
  path_slash : ∀ c ∈ path.head?, c = 47

namespace Url

/-- The port with its colon. -/
def portText (u : Url) : Bytes :=
  match u.port with
  | none => []
  | some p => 58 :: decimal p

/-- What follows the host. -/
def tail (u : Url) : Bytes := u.portText ++ u.path

/-- The URL as it is written. -/
def text (u : Url) : Bytes := u.scheme.text ++ (u.host ++ u.tail)

/-- The path that is asked for. -/
def target (u : Url) : Bytes := if u.path = [] then bytes "/" else u.path

/-- The parsers give the parts back. -/
structure Decomposes (u : Url) : Prop where
  domain_name : parse_domain_name u.text = u.host
  path : parse_path u.text = u.target
  port : get_port u.text = .ok ((u.port.getD 80 : Nat) : Int)

/-- What follows the first colon of a text, up to the next slash. -/
def behindColon (s : Bytes) : Bytes :=
  cutAt ((s.dropWhile (· ≠ 58)).drop 1) 47

/-- No colon of the path is taken for the start of a port, or it is followed by
the number 80. -/
def PortClear (u : Url) : Prop :=
  u.port.isSome = true ∨ 58 ∉ u.path ∨ atoi (behindColon u.path) = .ok 80

/-! ## The parts -/

variable (u : Url)

theorem path_cases : u.path = [] ∨ ∃ rest, u.path = 47 :: rest := by
  cases hpath : u.path with
  | nil => exact Or.inl rfl
  | cons c rest =>
    have hc : c = 47 := u.path_slash c (by rw [hpath]; simp)
    exact Or.inr ⟨rest, by rw [hc]⟩

/-- Behind the host there is nothing, a port, or a path. -/
theorem tail_cases : (u.port = none ∧ u.tail = u.path) ∨
    ∃ p, u.port = some p ∧ u.tail = 58 :: (decimal p ++ u.path) := by
  unfold tail portText
  cases u.port with
  | none => exact Or.inl ⟨rfl, rfl⟩
  | some p => exact Or.inr ⟨p, rfl, rfl⟩

theorem slash_not_mem_decimal (p : Nat) : 47 ∉ decimal p := by
  intro hmem
  have hdigit := isdigit_of_mem_decimal hmem
  revert hdigit
  decide

theorem slash_not_mem_portText : 47 ∉ u.portText := by
  unfold portText
  cases u.port with
  | none => simp
  | some p =>
    intro hmem
    rcases List.mem_cons.mp hmem with h | h
    · simp at h
    · exact slash_not_mem_decimal p h

/-- The host ends at the first colon or slash. -/
theorem takeWhile_host :
    (u.host ++ u.tail).takeWhile (fun c => c != 58 && c != 47) = u.host := by
  have hhost : ∀ c ∈ u.host, (c != 58 && c != 47) = true := by
    intro c hc
    have hcolon : c ≠ 58 := fun h => u.host_text.2.1 (h ▸ hc)
    have hslash : c ≠ 47 := fun h => u.host_text.2.2 (h ▸ hc)
    simp [hcolon, hslash]
  rw [List.takeWhile_append_of_pos hhost]
  rcases u.tail_cases with ⟨-, htail⟩ | ⟨p, -, htail⟩
  · rcases u.path_cases with hpath | ⟨rest, hpath⟩
    · simp [htail, hpath]
    · simp [htail, hpath]
  · simp [htail]

/-- Without a scheme, a URL does not start like one: there would have to be a
slash behind the colon of the port. -/
theorem not_scheme (name : Bytes) (hname : ∀ c ∈ name, (c != 58 && c != 47) = true) (rest : Bytes) :
    u.host ++ u.tail ≠ name ++ 58 :: 47 :: rest := by
  intro heq
  have hhost : u.host = name := by
    rw [← u.takeWhile_host, heq, List.takeWhile_append_of_pos hname]
    simp
  rw [hhost, List.append_cancel_left_eq] at heq
  rcases u.tail_cases with ⟨-, htail⟩ | ⟨p, -, htail⟩
  · rw [htail] at heq
    have hslash := u.path_slash 58 (by rw [heq]; simp)
    simp at hslash
  · rw [htail, List.cons.injEq] at heq
    obtain ⟨c, digits, hdigits⟩ := List.exists_cons_of_ne_nil (decimal_ne_nil p)
    rw [hdigits, List.cons_append, List.cons.injEq] at heq
    have hdigit : isdigit 47 = true :=
      isdigit_of_mem_decimal (n := p) (by rw [hdigits, heq.2.1]; exact List.mem_cons_self ..)
    revert hdigit
    decide

/-- All three parsers step over the scheme. -/
theorem skip_scheme_text : skip_scheme u.text = u.host ++ u.tail := by
  unfold skip_scheme text
  cases u.scheme with
  | http =>
    have hlength : (bytes "http://").length = 7 := by decide
    rw [Scheme.text, if_pos (strncmp_append hlength _), List.drop_left' hlength]
  | https =>
    have hother : strncmp (bytes "https://" ++ (u.host ++ u.tail)) (bytes "http://") 7 ≠ 0 := by
      rw [Ne, strncmp_eq_zero_iff, List.take_append_of_le_length (by decide)]
      decide
    have hlength : (bytes "https://").length = 8 := by decide
    rw [Scheme.text, if_neg hother, if_pos (strncmp_append hlength _), List.drop_left' hlength]
  | absent =>
    have hhttp : strncmp (u.host ++ u.tail) (bytes "http://") 7 ≠ 0 := by
      intro h
      obtain ⟨rest, hrest⟩ := exists_append_of_strncmp h rfl
      exact u.not_scheme (bytes "http") (by decide +kernel) (47 :: rest) hrest
    have hhttps : strncmp (u.host ++ u.tail) (bytes "https://") 8 ≠ 0 := by
      intro h
      obtain ⟨rest, hrest⟩ := exists_append_of_strncmp h rfl
      exact u.not_scheme (bytes "https") (by decide +kernel) (47 :: rest) hrest
    rw [Scheme.text, List.nil_append, if_neg hhttp, if_neg hhttps]

/-! ## The parsers -/

theorem parse_domain_name_text : parse_domain_name u.text = u.host := by
  obtain ⟨-, hcolon, hslash⟩ := u.host_text
  unfold parse_domain_name
  rw [skip_scheme_text]
  rcases u.tail_cases with ⟨-, htail⟩ | ⟨p, -, htail⟩
  · rw [htail]
    rcases u.path_cases with hpath | ⟨rest, hpath⟩
    · rw [hpath, List.append_nil, cutAt_eq_self hcolon, cutAt_eq_self hslash]
    · -- a colon in the path is cut off first, and then the path
      have hcut : cutAt (u.host ++ 47 :: rest) 58 = u.host ++ 47 :: cutAt rest 58 := by
        have hhead : (58 : UInt8) ∉ u.host ++ [47] := by simp [hcolon]
        have hsplit := cutAt_append_left hhead rest
        simpa using hsplit
      rw [hpath]
      show cutAt (cutAt (u.host ++ 47 :: rest) 58) 47 = u.host
      rw [hcut, cutAt_append hslash]
  · rw [htail]
    show cutAt (cutAt (u.host ++ 58 :: _) 58) 47 = u.host
    rw [cutAt_append hcolon, cutAt_eq_self hslash]

theorem parse_path_text : parse_path u.text = u.target := by
  have hslash : (47 : UInt8) ∉ u.host ++ u.portText := fun hmem =>
    (List.mem_append.mp hmem).elim u.host_text.2.2 u.slash_not_mem_portText
  have htext : u.host ++ u.tail = (u.host ++ u.portText) ++ u.path := by
    rw [tail, List.append_assoc]
  unfold parse_path target
  simp only [skip_scheme_text, htext]
  rcases u.path_cases with hpath | ⟨rest, hpath⟩
  · rw [hpath, List.append_nil, strchr_eq_none hslash, if_pos rfl]
  · rw [hpath, strchr_append hslash, if_neg (by simp)]
    simp

/-- A port that is given is found. -/
theorem get_port_of_some {p : Nat} (hport : u.port = some p) : get_port u.text = .ok p := by
  have hrange := u.port_range p hport
  have htail : u.tail = 58 :: (decimal p ++ u.path) := by
    rw [tail, portText, hport]
    rfl
  have hcut : cutAt (decimal p ++ u.path) 47 = decimal p := by
    rcases u.path_cases with hpath | ⟨rest, hpath⟩
    · rw [hpath, List.append_nil, cutAt_eq_self (slash_not_mem_decimal p)]
    · rw [hpath, cutAt_append (slash_not_mem_decimal p)]
  have hdrop : (u.host ++ 58 :: (decimal p ++ u.path)).drop (u.host.length + 1) =
      decimal p ++ u.path := by
    rw [← List.singleton_append, ← List.append_assoc, List.drop_left' (by simp)]
  unfold get_port
  simp only [skip_scheme_text, htail, strchr_append u.host_text.2.1, hdrop, hcut]
  exact atoi_decimal (by omega)

theorem behindColon_append {before : Bytes} (h : 58 ∉ before) (after : Bytes) :
    behindColon (before ++ 58 :: after) = cutAt after 47 := by
  rw [behindColon, List.dropWhile_append_of_pos (forall_ne_of_not_mem h)]
  simp

/-- Without a port, a colon in the path is taken for the start of one. -/
theorem get_port_of_none (hport : u.port = none) :
    get_port u.text = if 58 ∈ u.path then atoi (behindColon u.path) else .ok 80 := by
  have htail : u.tail = u.path := by
    rw [tail, portText, hport]
    rfl
  unfold get_port
  simp only [skip_scheme_text, htail]
  by_cases hcolon : 58 ∈ u.path
  · rw [if_pos hcolon]
    obtain ⟨before, after, hpath, hbefore⟩ := List.eq_append_cons_of_mem hcolon
    have hnot : (58 : UInt8) ∉ u.host ++ before := fun hmem =>
      (List.mem_append.mp hmem).elim u.host_text.2.1 hbefore
    rw [hpath, behindColon_append hbefore, ← List.append_assoc, strchr_append hnot]
    show atoi (cutAt (List.drop _ _) 47) = _
    rw [← List.singleton_append, ← List.append_assoc, List.drop_left' (by simp [Nat.add_assoc])]
  · have hnot : (58 : UInt8) ∉ u.host ++ u.path := fun hmem =>
      (List.mem_append.mp hmem).elim u.host_text.2.1 hcolon
    rw [if_neg hcolon, strchr_eq_none hnot]

end Url

/-- The parsers give back the parts of a URL exactly when a port is given, or
the path has no colon, or a colon that is followed by 80. -/
theorem url_decomposes_iff (u : Url) : u.Decomposes ↔ u.PortClear := by
  have hport : get_port u.text = .ok ((u.port.getD 80 : Nat) : Int) ↔ u.PortClear := by
    unfold Url.PortClear
    cases hgiven : u.port with
    | some p => simp [u.get_port_of_some hgiven]
    | none =>
      rw [u.get_port_of_none hgiven]
      by_cases hcolon : 58 ∈ u.path
      · simp [hcolon]
      · simp [hcolon]
  constructor
  · intro h
    exact hport.mp h.port
  · intro h
    exact ⟨u.parse_domain_name_text, u.parse_path_text, hport.mpr h⟩

/-- A colon in the path, and no port. -/
def colonInPath : Url where
  scheme := .http
  host := bytes "host"
  port := none
  path := bytes "/a:b"
  host_ne := by decide
  host_text := by decide
  port_range := by simp
  path_text := by decide
  path_slash := by decide +kernel

theorem colon_in_path_is_port :
    colonInPath.text = bytes "http://host/a:b" ∧ get_port colonInPath.text = .ok 0 ∧
      ¬ colonInPath.Decomposes := by
  have hport : get_port colonInPath.text = .ok 0 := by decide
  refine ⟨by decide, hport, fun h => ?_⟩
  have hdefault := h.port
  rw [hport] at hdefault
  revert hdefault
  decide

end Vklib.Requests
