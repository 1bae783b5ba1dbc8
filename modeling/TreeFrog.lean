import TreeFrog.AccessValidator
import TreeFrog.Search
import TreeFrog.Bytes
import TreeFrog.HeaderBlock
import TreeFrog.HeaderStore
import TreeFrog.Generate
import TreeFrog.Wire
import TreeFrog.RequestRoundTrip
import TreeFrog.Pipeline
import TreeFrog.EpollSocket
import TreeFrog.Reception
import TreeFrog.KeepAlive
import TreeFrog.WebSocketRun
import TreeFrog.WebSocketPieces
import TreeFrog.WebSocketCodec
import TreeFrog.SqlCondition
import TreeFrog.SqlText
import TreeFrog.MetaObject
import TreeFrog.Criteria
import TreeFrog.CriteriaConverter
import TreeFrog.CriteriaSound
import TreeFrog.SortedMap
import TreeFrog.Bson
import TreeFrog.MongoQuery
import TreeFrog.CriteriaMongo
import TreeFrog.BulkWrite
import TreeFrog.SqlRecord
import TreeFrog.SqlObject
import TreeFrog.SqlORMapper
import TreeFrog.SqlUpdate
import TreeFrog.OptimisticLock
import TreeFrog.SqlPartialUpdate
import TreeFrog.SqlFailedUpdate
import TreeFrog.MongoObject
import TreeFrog.SqlTransaction
import TreeFrog.ConnectionPool
import TreeFrog.SqlDatabasePool
import TreeFrog.KvsDatabasePool
import TreeFrog.DatabaseContext
import TreeFrog.WebSocketWorker
import TreeFrog.Threads
import TreeFrog.WebSocketTasks
import TreeFrog.WebSocketClose
import TreeFrog.Exceptions
import TreeFrog.ActionContext
import TreeFrog.Framing
import TreeFrog.DataStream
import TreeFrog.Log
import TreeFrog.SharedMemoryLogStream
import TreeFrog.SystemBus
import TreeFrog.SystemBusStream
import TreeFrog.BusDaemon
import TreeFrog.Publisher
import TreeFrog.ApplicationServers
import TreeFrog.Decimal
import TreeFrog.RedisReply
import TreeFrog.RedisCommand
import TreeFrog.RedisDriver
import TreeFrog.RedisDecode
import TreeFrog.RedisComplete
import TreeFrog.RedisPieces
import TreeFrog.LexicalPath
import TreeFrog.Url
import TreeFrog.StaticFile
import TreeFrog.UrlRoute
import TreeFrog.HttpRequest
import TreeFrog.ItemMap
import TreeFrog.UrlMatch
import TreeFrog.Hex
import TreeFrog.Session
import TreeFrog.SessionCookieStore
import TreeFrog.SessionFileStore
import TreeFrog.MailData
import TreeFrog.SmtpMailer
import TreeFrog.Lines
import TreeFrog.MimeHeader
import TreeFrog.HeaderParameter
import TreeFrog.MultipartFormData
import TreeFrog.MultipartBody
import TreeFrog.MultipartRoundTrip
import TreeFrog.ErbParser
import TreeFrog.Paginator
import TreeFrog.FormValidator
import TreeFrog.JSLoader
import TreeFrog.ErbTagEnd
import TreeFrog.Regular
import TreeFrog.HtmlElement
import TreeFrog.HtmlScan
import TreeFrog.HtmlTag
import TreeFrog.HtmlForest
import TreeFrog.HtmlParser
import TreeFrog.HtmlShown
import TreeFrog.HtmlReprint
import TreeFrog.HtmlText
import TreeFrog.HtmlPrint
import TreeFrog.SendBuffer
import TreeFrog.MailBody
import TreeFrog.Base64
import TreeFrog.MimeEncoded
import TreeFrog.LinkedList
import TreeFrog.HazardPtr
import TreeFrog.JSComment
import TreeFrog.Dispatcher
import TreeFrog.HtmlCopy
import TreeFrog.HtmlEdits
import TreeFrog.HtmlMerge
import TreeFrog.Otama
import TreeFrog.OtamaWrap
import TreeFrog.Linearizable
import TreeFrog.Stack
import TreeFrog.Queue
import TreeFrog.EpollServer
import TreeFrog.EpollDelivery
import TreeFrog.BusNetwork
import TreeFrog.Reclamation
import TreeFrog.ThreadServer
import TreeFrog.SmtpDialog
import TreeFrog.SmtpServer
