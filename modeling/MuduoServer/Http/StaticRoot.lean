import MuduoServer.Base.FileLRU
import MuduoServer.Http.RequestHead

namespace MuduoServer

/-- The parameters and the header lines of a head leave the URL as it is. -/
theorem RequestHead.request_url (h : RequestHead) : h.request.url = 47 :: h.url := by
  have hparams : ∀ (ps : List UrlParam) (q : HTTPRequest),
      (ps.foldl (fun q p => q.addParam p.key p.value) q).url = q.url := by
    intro ps
    induction ps with
    | nil => exact fun _ => rfl
    | cons p ps ih => exact fun q => ih (q.addParam p.key p.value)
  have hheaders : ∀ (ls : List HeaderLine) (q : HTTPRequest),
      (ls.foldl (fun q l => q.addHeader l.key l.value) q).url = q.url := by
    intro ls
    induction ls with
    | nil => exact fun _ => rfl
    | cons l ls ih => exact fun q => ih (q.addHeader l.key l.value)
  exact (hheaders _ _).trans (hparams _ _)

namespace FileLRU

/-- What `put` reads depends on no file but the one at this path. -/
theorem load_of_fullPath (c : FileLRU) {disk disk' : Disk} {k : Bytes}
    (heq : disk (c.fullPath k) = disk' (c.fullPath k)) : c.load disk k = c.load disk' k := by
  rw [load, heq, load]

theorem fullPath_within_of_names (c : FileLRU) {k : Bytes}
    (hdots : bytes ".." ∉ Path.components k) : Path.Within c.path (c.fullPath k) := by
  rw [fullPath, Path.within_append_iff, Path.climb_up_eq_zero hdots, Nat.sub_zero,
    List.drop_length]
  exact List.nil_prefix

/-- The one file that is opened for a request lies at or below the static path exactly when the
URL goes up no further than to names that it comes back through: of the `..` that have no name
before them to cancel, as many names from the end of the static path follow. -/
theorem request_within_iff (c : FileLRU) (h : RequestHead) :
    (∀ disk disk' : Disk, disk (c.fullPath h.request.url) = disk' (c.fullPath h.request.url) →
      c.load disk h.request.url = c.load disk' h.request.url) ∧
    (Path.Within c.path (c.fullPath h.request.url) ↔
      c.path.normal.drop (c.path.normal.length - (Path.components (47 :: h.url)).climb.up) <+:
        (Path.components (47 :: h.url)).climb.down) := by
  refine ⟨fun disk disk' heq => c.load_of_fullPath heq, ?_⟩
  rw [h.request_url]
  exact Path.within_append_iff c.path _

/-- A file outside the static path is read and served. -/
theorem request_leaves_root :
    ∃ ctx b c,
      HTTPContext.parseRequest .new
          (Buffer.default.append (bytes "GET /../../etc/passwd HTTP/1.1\r\n\r\n")) =
        some (.complete, ctx, b) ∧
      (FileLRU.new [bytes "srv", bytes "www"] 16 0 1).getFile
          (fun p => if p.normal = [bytes "etc", bytes "passwd"] then .regular (bytes "root:x:0")
            else .missing) 2 ctx.request.url =
        some (.ok (some (bytes "root:x:0")), c) ∧
      ¬ Path.Within c.path (c.fullPath ctx.request.url) := by
  obtain ⟨⟨st, ctx, b⟩, hparse, hurl⟩ := Option.map_eq_some_iff.mp
    (show (HTTPContext.parseRequest .new
        (Buffer.default.append (bytes "GET /../../etc/passwd HTTP/1.1\r\n\r\n"))).map
        (fun r => (r.1, r.2.1.request.url)) = some (.complete, bytes "/../../etc/passwd") from by
      decide +kernel)
  obtain ⟨rfl, hurl⟩ := Prod.mk.inj hurl
  obtain ⟨⟨v, c⟩, hget, hc⟩ := Option.map_eq_some_iff.mp
    (show ((FileLRU.new [bytes "srv", bytes "www"] 16 0 1).getFile
        (fun p => if p.normal = [bytes "etc", bytes "passwd"] then .regular (bytes "root:x:0")
          else .missing) 2 (bytes "/../../etc/passwd")).map (fun r => (r.1.toOption, r.2.path)) =
        some (some (some (bytes "root:x:0")), [bytes "srv", bytes "www"]) from by
      decide +kernel)
  obtain ⟨hv, hpath⟩ := Prod.mk.inj hc
  refine ⟨ctx, b, c, hparse, ?_, ?_⟩
  · cases v with
    | error err => cases hv
    | ok v =>
      rw [hurl, hget, Option.some.inj hv]
  · rw [fullPath, hpath, hurl]
    decide +kernel

end FileLRU

end MuduoServer
