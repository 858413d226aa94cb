import Smolvfs.Framing
import Smolvfs.Fetch
import Smolvfs.PublishRace
import Smolvfs.PackAccess
import Smolvfs.PackLayout
import Smolvfs.GcGrace
import Smolvfs.GcTopics
import Smolvfs.TreeText
import Smolvfs.NameUtf8
import Smolvfs.HtreeAccess
import Smolvfs.LogPrune
import Smolvfs.OmapRuns
import Smolvfs.VfsNormalize
import Smolvfs.VfsAddress
import Smolvfs.VfsProtect
import Smolvfs.VfsRefine
import Smolvfs.SnapStore
import Smolvfs.SnapFsck
import Smolvfs.SnapHistory
import Smolvfs.TopicCommands
import Smolvfs.Export
import Smolvfs.VfsResolve
import Smolvfs.VrecForm
import Smolvfs.Vchain
import Smolvfs.HtreeBuild
import Smolvfs.Fnmatch
import Smolvfs.OmapAlloc
import Smolvfs.OmapLoaded
import Smolvfs.CastoolEdits
import Smolvfs.Checkfile
import Smolvfs.DepotRuns
import Smolvfs.SessionRuns
