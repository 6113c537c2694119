import Icl.Format.Path
import Icl.Json.JsonValue
import Icl.Protocol.HttpFileServer

namespace Icl.Protocol

open Icl.Cxx Icl.Format Icl.Json Icl.Network Icl.Util

/-!
# `HttpFileServer::GetFile`

The model of `GetFile` of `protocol/HttpFileServer.cpp`, and of the functions of `util/Util.cpp`
that it calls.  The file system and `Zip::CompressBuffer` are given.

* `getFile` — what is opened and what is written;
* `Inside` — a pathname that leads into the root directory;
* `Contained` — the resources that do not climb;
* `getFile_inside_iff` — the requests that open nothing outside, whatever the root directory.
-/

/-! ### The model -/

/-- What `GetFile` asks for.  A pathname ends at its first NUL. -/
structure FileAccess where
  /-- `stat` finds a regular file. -/
  isFile : Bytes → Bool
  /-- `st_size`. -/
  size : Bytes → ℕ
  /-- What a stream reads from the file. -/
  contents : Bytes → Bytes
  /-- `Zip::CompressBuffer`: the compressed size and the output. -/
  compressBuffer : Bytes → ℕ → Int × Bytes

/-- `c_str()`, as a pathname. -/
def pathOf (s : Bytes) : Bytes := s.takeWhile (· ≠ 0)

/-- `Util::FileExists`. -/
def fileExists (access : FileAccess) (fileName : Bytes) : Bool := access.isFile (pathOf fileName)

/-- `Util::FileSize`. -/
def fileSize (access : FileAccess) (fileName : Bytes) : ℕ := access.size (pathOf fileName)

/-- `Util::GetFileName`. -/
def getFileName (path : Bytes) : Bytes := path.rtakeWhile fun c => c ≠ 0x2F ∧ c ≠ 0x5C

/-- `Util::GetFileExtension`. -/
def getFileExtension (fileName : Bytes) : Bytes :=
  if 0x2E ∈ fileName then fileName.rtakeWhile (· ≠ 0x2E) else []

/-- The table of `mime_type`. -/
def mimeTypes : List (Bytes × Bytes) :=
  [(ascii "htm", ascii "text/html"), (ascii "html", ascii "text/html"),
    (ascii "php", ascii "text/html"), (ascii "css", ascii "text/css"),
    (ascii "txt", ascii "text/plain"), (ascii "js", ascii "application/javascript"),
    (ascii "json", ascii "application/json"), (ascii "xml", ascii "application/xml"),
    (ascii "swf", ascii "application/x-shockwave-flash"), (ascii "flv", ascii "video/x-flv"),
    (ascii "png", ascii "image/png"), (ascii "jpe", ascii "image/jpeg"),
    (ascii "jpeg", ascii "image/jpeg"), (ascii "jpg", ascii "image/jpeg"),
    (ascii "gif", ascii "image/gif"), (ascii "bmp", ascii "image/bmp"),
    (ascii "ico", ascii "image/vnd.microsoft.icon"), (ascii "tiff", ascii "image/tiff"),
    (ascii "tif", ascii "image/tiff"), (ascii "svg", ascii "image/svg+xml"),
    (ascii "svgz", ascii "image/svg+xml"), (ascii "woff2", ascii "font/woff2"),
    (ascii "pdf", ascii "application/pdf")]

/-- `mime_type`. -/
def mimeType (ext : Bytes) : Bytes :=
  ((mimeTypes.find? fun e => e.1 == ext).map Prod.snd).getD (ascii "application/text")

/-- What `GetFile` does. -/
inductive GetFileEffect where
  /-- A file is opened and read. -/
  | opens (path : Bytes)
  /-- `TcpSocket::Write`. -/
  | write (peer : Peer) (msg : Bytes)
  deriving DecidableEq, Repr

/-- The resource a query asks for. -/
def resourceOf (query : Bytes) : Bytes := if query = ascii "/" then ascii "/index.html" else query

/-- The header of the reply, up to the length. -/
def fileHeader (ext fullFilepath : Bytes) : Bytes :=
  ascii "HTTP/1.1 200 OK\r\n" ++ ascii "Content-type: " ++ mimeType ext ++ ascii "\r\n" ++
    if ext = ascii "pdf" then
      ascii "Content-Disposition: inline; filename=\"" ++ getFileName fullFilepath ++ ascii "\""
        ++ ascii "\r\n"
    else []

/-- What is written once the file has been read: nothing if it could not be compressed. -/
def fileReply (access : FileAccess) (conn : Conn) (ext fullFilepath : Bytes) :
    List GetFileEffect :=
  let str := access.contents (pathOf fullFilepath)
  let (compressedSize, output) := access.compressBuffer str (fileSize access fullFilepath)
  if compressedSize > 0 then
    [.write conn.peer (fileHeader ext fullFilepath ++ ascii "Content-length: "
        ++ intToString compressedSize ++ ascii "\r\n" ++ ascii "Content-Encoding: deflate\r\n\r\n"),
      .write conn.peer (output.take compressedSize.toNat)]
  else []

/-- `HttpFileServer::GetFile`: whether a file has been found, and what has been done. -/
def getFile (access : FileAccess) (mRootDir : Bytes) (conn : Conn) (request : HttpRequest) :
    Bool × List GetFileEffect :=
  let resource := resourceOf request.query
  let ext := getFileExtension resource
  if ext.length ≠ 0 ∧ request.method = ascii "GET" then
    let fullFilepath := mRootDir ++ resource
    if fileExists access fullFilepath then
      (true, .opens (pathOf fullFilepath) :: fileReply access conn ext fullFilepath)
    else (false, [])
  else (false, [])

/-! ### The root directory -/

/-- The pathname leads into the directory. -/
def Inside (cwd : List Bytes) (mRootDir path : Bytes) : Prop :=
  resolve cwd (pathOf mRootDir ++ [0x2F]) <+: resolve cwd path

instance (cwd : List Bytes) (mRootDir path : Bytes) : Decidable (Inside cwd mRootDir path) :=
  inferInstanceAs (Decidable (_ <+: _))

/-- A resource that starts with a slash and never climbs above the directory it starts in, or that
    is empty. -/
def Contained (path : Bytes) : Prop :=
  path = [] ∨ ∃ rest, path = 0x2F :: rest ∧ stays 0 (rest.splitOn 0x2F) = true

/-- What is opened is the root directory followed by the resource, as it stands. -/
theorem opens_iff {access : FileAccess} {mRootDir path : Bytes} {conn : Conn}
    {request : HttpRequest} : .opens path ∈ (getFile access mRootDir conn request).2 ↔
      getFileExtension (resourceOf request.query) ≠ [] ∧ request.method = ascii "GET" ∧
        fileExists access (mRootDir ++ resourceOf request.query) = true ∧
        path = pathOf (mRootDir ++ resourceOf request.query) := by
  have hreply : ∀ ext fullFilepath, .opens path ∉ fileReply access conn ext fullFilepath := by
    intro ext fullFilepath
    rw [fileReply]
    dsimp only
    split <;> simp
  simp only [getFile, Ne, List.length_eq_zero_iff]
  by_cases hfile : ¬ getFileExtension (resourceOf request.query) = [] ∧ request.method = ascii "GET"
  · rw [if_pos hfile]
    by_cases hexists : fileExists access (mRootDir ++ resourceOf request.query) = true
    · rw [if_pos hexists]
      simp [hreply, hfile, hexists]
    · rw [if_neg hexists]
      simp [hexists]
  · rw [if_neg hfile]
    simp only [List.not_mem_nil, false_iff]
    exact fun ⟨hext, hget, _⟩ => hfile ⟨hext, hget⟩

/-- A pathname goes on where the first part has no NUL, and ends in it otherwise. -/
theorem pathOf_append (s t : Bytes) :
    pathOf (s ++ t) = pathOf s ∨ pathOf (s ++ t) = pathOf s ++ pathOf t := by
  by_cases hs : ∀ c ∈ s, decide (c ≠ 0) = true
  · right
    rw [pathOf, pathOf, pathOf, List.takeWhile_append_of_pos hs, List.takeWhile_eq_self_iff.mpr hs]
  · left
    rw [pathOf, pathOf, List.takeWhile_append, if_neg]
    intro hlen
    exact hs (List.takeWhile_eq_self_iff.mp (List.IsPrefix.eq_of_length
      (List.takeWhile_prefix _) hlen))

/-- **A contained resource is inside**, whatever the root directory. -/
theorem inside_of_contained {resource : Bytes} (h : Contained (pathOf resource))
    (cwd : List Bytes) (mRootDir : Bytes) :
    Inside cwd mRootDir (pathOf (mRootDir ++ resource)) := by
  rw [Inside]
  obtain hpath | hpath := pathOf_append mRootDir resource
  · rw [hpath]
    exact resolve_slash_prefix cwd (pathOf mRootDir)
  · rw [hpath]
    obtain hnil | ⟨rest, hrest, hstays⟩ := h
    · rw [hnil, List.append_nil]
      exact resolve_slash_prefix cwd (pathOf mRootDir)
    · rw [hrest, resolve_append_slash cwd _ rest]
      have hprefix : resolve cwd (pathOf mRootDir ++ [0x2F]) <+:
          walk (resolve cwd (pathOf mRootDir ++ [0x2F]) ++ []) (rest.splitOn 0x2F) :=
        prefix_walk hstays
      rwa [List.append_nil] at hprefix

/-- A name that is longer than a resource. -/
def freshName (resource : Bytes) : Bytes := List.replicate (resource.length + 1) 0x77

/-- **A resource that is not contained gets out** of a root directory with a name of its own. -/
theorem not_inside_of_not_contained {resource : Bytes} (h : ¬ Contained (pathOf resource)) :
    ¬ Inside [] (0x2F :: freshName (pathOf resource))
      (pathOf (0x2F :: freshName (pathOf resource) ++ resource)) := by
  generalize hpath : pathOf resource = path at h ⊢
  set w := freshName path with hw
  have hzero : ∀ c ∈ 0x2F :: w, decide (c ≠ 0) = true := by
    intro c hc
    rcases List.mem_cons.mp hc with rfl | hc
    · decide
    · rw [List.eq_of_mem_replicate hc]
      decide
  have hslash : (0x2F : UInt8) ∉ w := fun hmem => by
    simpa using List.eq_of_mem_replicate hmem
  have hroot : pathOf (0x2F :: w) = 0x2F :: w := List.takeWhile_eq_self_iff.mpr hzero
  have hfull : pathOf (0x2F :: w ++ resource) = 0x2F :: w ++ path := by
    rw [pathOf, List.takeWhile_append_of_pos hzero, ← hpath]
    rfl
  -- No part of the resource is as long as the name.
  have hfresh : ∀ part ∈ path.splitOn 0x2F, part ≠ w := by
    rintro part hpart rfl
    have := length_le_of_mem_splitOn hpart
    rw [hw, freshName, List.length_replicate] at this
    omega
  have hname : ∀ part, enter [] (w ++ part) = [w ++ part] := by
    intro part
    have hdot : ascii "." = [0x2E] := rfl
    have hdots : ascii ".." = [0x2E, 0x2E] := rfl
    simp [enter, hw, freshName, List.replicate_succ, hdot, hdots]
  have hresolve : ∀ rest, resolve [] (0x2F :: rest) = walk [] (rest.splitOn 0x2F) :=
    fun rest => resolve_append_slash [] [] rest
  have hdir : resolve [] (pathOf (0x2F :: w) ++ [0x2F]) = [w] := by
    have henter := hname []
    rw [List.append_nil] at henter
    rw [hroot, List.cons_append, hresolve, List.splitOn_append_cons_self,
      splitOn_of_not_mem hslash, walk_append, walk_cons, henter]
    rfl
  have hout : w ∉ resolve [] (0x2F :: w ++ path) := by
    obtain ⟨hnil, hstays⟩ := not_or.mp h
    obtain ⟨first, rest, hsplit⟩ := List.exists_cons_of_ne_nil (List.splitOn_ne_nil 0x2F path)
    have hrest : w ∉ rest := fun hmem =>
      hfresh w (hsplit ▸ List.mem_cons_of_mem _ hmem) rfl
    rw [List.cons_append, hresolve, splitOn_append hslash hsplit, walk_cons, hname]
    by_cases hfirst : first = []
    · -- The resource starts with a slash, and climbs.
      subst hfirst
      rw [List.append_nil]
      refine not_mem_walk_of_not_stays List.not_mem_nil hrest ?_
      obtain ⟨tail, htail, rfl⟩ := splitOn_nil_cons hsplit hnil
      exact Bool.eq_false_of_not_eq_true fun hs => hstays ⟨tail, htail, hs⟩
    · refine not_mem_walk ?_ hrest
      simpa using hfirst
  rw [Inside, hdir, hfull]
  exact fun hpre => hout (hpre.subset List.mem_cons_self)

/-- **The requests that open nothing outside the root directory**, whatever it is: those that open
    nothing at all, because the method is not GET or the resource has no extension, and those whose
    resource is contained. -/
theorem getFile_inside_iff (request : HttpRequest) :
    (∀ (access : FileAccess) (mRootDir : Bytes) (conn : Conn) (cwd : List Bytes) (path : Bytes),
        .opens path ∈ (getFile access mRootDir conn request).2 → Inside cwd mRootDir path) ↔
      request.method ≠ ascii "GET" ∨ getFileExtension (resourceOf request.query) = [] ∨
        Contained (pathOf (resourceOf request.query)) := by
  constructor
  · intro h
    by_contra hnot
    simp only [not_or, not_not] at hnot
    obtain ⟨hget, hext, hclimbs⟩ := hnot
    -- A file system in which everything is a file.
    let access : FileAccess := ⟨fun _ => true, fun _ => 0, fun _ => [], fun _ _ => (0, [])⟩
    refine not_inside_of_not_contained hclimbs
      (h access _ (.new 0 0 false) [] _ (opens_iff.mpr ⟨hext, hget, rfl, rfl⟩))
  · intro h access mRootDir conn cwd path hopens
    obtain ⟨hext, hget, -, rfl⟩ := opens_iff.mp hopens
    obtain hmethod | hnone | hcontained := h
    · exact absurd hget hmethod
    · exact absurd hnone hext
    · exact inside_of_contained hcontained cwd mRootDir

/-- A request that opens a file next to the root directory. -/
theorem getFile_climbs :
    let access : FileAccess :=
      ⟨fun path => path == ascii "/srv/www/../s.txt", fun _ => 0, fun _ => [], fun _ _ => (0, [])⟩
    ∃ request,
      parseRequestHeader (ascii "GET /../s.txt HTTP/1.1\r\n\r\n") .new = .ok (true, request) ∧
      .opens (ascii "/srv/www/../s.txt")
        ∈ (getFile access (ascii "/srv/www") (.new 0 0 false) request).2 ∧
      ¬ Inside [] (ascii "/srv/www") (ascii "/srv/www/../s.txt") := by
  intro access
  let request : HttpRequest :=
    { HttpRequest.new with query := ascii "/../s.txt" }
  have hparse : parseRequestHeader (ascii "GET /../s.txt HTTP/1.1\r\n\r\n") .new
      = .ok (true, request) := by decide +kernel
  have hopens : (getFile access (ascii "/srv/www") (.new 0 0 false) request).2
      = [.opens (ascii "/srv/www/../s.txt")] := by decide +kernel
  refine ⟨request, hparse, ?_, by decide +kernel⟩
  rw [hopens]
  exact List.mem_singleton_self _

end Icl.Protocol
