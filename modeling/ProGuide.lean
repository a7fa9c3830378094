import ProGuide.Lib.Text
import ProGuide.Lib.Regex
import ProGuide.Lib.SreParse
import ProGuide.Lib.RegexRules
import ProGuide.Lib.SreRules
import ProGuide.Youdao.WordBook
import ProGuide.Youdao.WordMatch
import ProGuide.Lib.Latest
import ProGuide.Youdao.WordBookTheorems
import ProGuide.Lib.Json
import ProGuide.Youdao.Args
import ProGuide.Lib.JsonRules
import ProGuide.Youdao.History
import ProGuide.Lib.Runs
import ProGuide.Lib.SparseArray
import ProGuide.Kafka.Lag
import ProGuide.Lib.Shlex
import ProGuide.Server.Epoll
import ProGuide.Config.Goland
import ProGuide.Config.OpenGit
import ProGuide.Alfred.TimeStamp
import ProGuide.Lib.SreSteps
import ProGuide.Lib.ProcTable
import ProGuide.Config.Kills
import ProGuide.Lib.Inodes
import ProGuide.Workflow.Files
import ProGuide.Workflow.LockFile
import ProGuide.Workflow.AtomicWriter
import ProGuide.Workflow.DataStore
import ProGuide.Workflow.Settings
import ProGuide.Lib.RegexSearch
import ProGuide.Workflow.Filter
import ProGuide.Workflow.Version
import ProGuide.Workflow.Update
import ProGuide.Workflow.Schedule
import ProGuide.Workflow.Cache
import ProGuide.Lib.Unicode
import ProGuide.Youdao.Main
import ProGuide.Youdao.Sessions
import ProGuide.Youdao.UserId
import ProGuide.Config.KillsTalk
import ProGuide.Workflow.Background
import ProGuide.Lib.Base64
import ProGuide.Alfred.Codec
import ProGuide.Workflow.Uninterruptible
